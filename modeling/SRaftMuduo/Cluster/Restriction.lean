import SRaftMuduo.Cluster.Wiring
import SRaftMuduo.Cluster.Contiguity
import SRaftMuduo.Cluster.Validity

namespace SRaftMuduo

/-- The last entry of the candidate has a higher term, or the same and an index at least as
high; an empty log is older than any other. -/
def EntryUpToDate (candidate logs : List LogEntry) : Prop :=
  ∀ e, logs.getLast? = some e → ∃ x, candidate.getLast? = some x ∧
    (e.term < x.term ∨ e.term = x.term ∧ e.index ≤ x.index)

theorem EntryUpToDate.nil (candidate : List LogEntry) : EntryUpToDate candidate [] := by
  intro e he
  exact absurd he (by simp)

def Call.term : Call → Nat
  | .requestVote _ request => request.term
  | .appendEntries _ request _ => request.term

/-- The term of the request of a call in flight and that of its response. -/
def Rpc.terms : Rpc → List Nat
  | .voteCall _ _ _ request => [request.term]
  | .voteReply _ _ _ request response => [request.term,response.term]
  | .appendCall _ _ _ request _ => [request.term]
  | .appendReply _ _ _ request _ response => [request.term,response.term]

def LogEntry.termFits (e : LogEntry) : Prop := e.term < 2^64

/-- All terms of the node are values of `uint64_t`. -/
structure TermsFit (n : Node) : Prop where
  current : n.raft.currentTerm < 2^64
  disk : ∀ record, n.persist = some record → record.term < 2^64
  calls : ∀ call ∈ n.calls, call.term < 2^64

namespace TermsFit

variable {n m : Node}

/-- A handler that gets a new term, and may have written this one or the old one. -/
theorem next (h : TermsFit n) (ht : m.raft.currentTerm < 2^64) (hc : m.calls = n.calls)
    (hd : m.persist = n.persist ∨ ∃ record, m.persist = some record ∧ record.term < 2^64) :
    TermsFit m := by
  refine ⟨ht,?_,hc ▸ h.calls⟩
  intro record hr
  rcases hd with hd | ⟨record',hd,hlt⟩
  · exact h.disk record (hd ▸ hr)
  · obtain rfl := Option.some.inj (hd.symm.trans hr)
    exact hlt

theorem doAppendEntries (h : TermsFit n) (isHeartbeat : Bool) :
    TermsFit (n.doAppendEntries isHeartbeat) := by
  obtain ⟨ci,la,hr⟩ := Node.doAppendEntries_raft isHeartbeat n
  refine ⟨by rw [hr]; exact h.current,by simpa using h.disk,?_⟩
  intro call hc
  rw [Node.doAppendEntries_calls] at hc
  rcases List.mem_append.mp hc with hc | hc
  · exact h.calls call hc
  · obtain ⟨_,peer,_,rfl⟩ := Node.callPeers_mem hc
    have hterm : (n.raft.appendRequest isHeartbeat peer).term = n.raft.currentTerm := by
      cases isHeartbeat <;> rfl
    change (n.raft.appendRequest isHeartbeat peer).term < 2^64
    exact hterm ▸ h.current

theorem doElection (h : TermsFit n) (r : Readings) : TermsFit (n.doElection r) := by
  have hu : u64 (n.raft.currentTerm+1) < 2^64 := by
    unfold u64
    omega
  have ht : (n.doElection r).raft.currentTerm = u64 (n.raft.currentTerm+1) := by simp
  refine ⟨ht ▸ hu,?_,?_⟩
  · intro record hr
    rw [Node.doElection_persist] at hr
    obtain rfl := Option.some.inj hr
    exact hu
  · intro call hc
    rw [Node.doElection_calls] at hc
    rcases List.mem_append.mp hc with hc | hc
    · exact h.calls call hc
    · obtain ⟨_,_,_,rfl⟩ := Node.callPeers_mem hc
      change (n.doElection r).raft.currentTerm < 2^64
      exact ht ▸ hu

theorem onTimer (h : TermsFit n) (r : Readings) : TermsFit (n.onTimer r) := by
  rcases Node.onTimer_cases r n with ⟨-,he⟩ | ⟨-,-,due,he⟩ | ⟨-,-,he⟩ | ⟨-,-,due,he⟩ <;> rw [he]
  · exact h
  · have hset : TermsFit {n with raft := {n.raft with dueHeartBeat := due}} :=
      h.next h.current rfl (.inl rfl)
    exact hset.doAppendEntries true
  · have helect := h.doElection r
    rcases Node.timerFail_cases r (n.doElection r) with he' | ⟨-,due,he'⟩ <;> rw [he']
    · exact helect
    · exact helect.next helect.current rfl (.inl rfl)
  · exact h.next h.current rfl (.inl rfl)

theorem doLog (h : TermsFit n) (cmd : CString) : TermsFit (n.doLog cmd).1 := by
  rcases Node.doLog_cases cmd n with ⟨-,he⟩ | ⟨-,he⟩ | ⟨-,-,-,he⟩ <;> rw [he]
  · exact h
  · exact h.next h.current rfl (.inl rfl)
  · have hd : TermsFit (Node.dump {n with raft := {n.raft with
        logs := n.raft.logs++[Node.newEntry cmd n.raft]}}) :=
      h.next h.current rfl (.inr ⟨_,rfl,h.current⟩)
    exact hd.doAppendEntries false

theorem onAppendEntriesRequest (h : TermsFit n) {request : AppendEntriesRequest}
    (ht : request.term < 2^64) (r : Readings) :
    TermsFit (n.onAppendEntriesRequest request r).1 ∧
      (n.onAppendEntriesRequest request r).2.term < 2^64 := by
  rcases Node.onAppendEntriesRequest_cases request r n with
    ⟨-,he⟩ | ⟨-,-,-,due,he⟩ | ⟨-,-,-,-,logs,-,he⟩ | ⟨-,-,-,-,he⟩ <;> rw [he]
  · exact ⟨h,h.current⟩
  · exact ⟨h.next ht rfl (.inl rfl),h.current⟩
  · exact ⟨h.next h.current rfl (.inr ⟨_,rfl,h.current⟩),h.current⟩
  · exact ⟨h.next h.current rfl (.inr ⟨_,rfl,h.current⟩),h.current⟩

theorem onAppendEntriesReponse (h : TermsFit n) (response : AppendEntriesResponse)
    (isHeartbeat : Bool) : TermsFit (n.onAppendEntriesReponse response isHeartbeat) := by
  obtain ⟨x,hx,⟨peers,ci,la,hr⟩,hp,hc⟩ :=
    Node.onAppendEntriesReponse_frame response isHeartbeat n
  split_ifs at hx <;> rw [hx] at hr hp
  · exact h.next (by rw [hr]; exact h.current) hc (.inr ⟨_,hp,h.current⟩)
  · exact h.next (by rw [hr]; exact h.current) hc (.inl hp)

theorem onRequestVoteRequest (h : TermsFit n) {request : RequestVoteRequest}
    (ht : request.term < 2^64) : TermsFit (n.onRequestVoteRequest request).1 ∧
      (n.onRequestVoteRequest request).2.term < 2^64 := by
  have hempty : RequestVoteResponse.empty.term < 2^64 := by decide
  constructor
  · rcases Node.onRequestVoteRequest_cases request n with
      ⟨-,he,-⟩ | ⟨-,-,-,he⟩ | ⟨-,-,-,-,he⟩ <;> rw [he]
    · exact h
    · exact h.next ht rfl (.inl rfl)
    · exact h.next ht rfl (.inr ⟨_,rfl,ht⟩)
  · unfold Node.onRequestVoteRequest
    dsimp only
    split_ifs
    · exact hempty
    all_goals exact h.current

theorem onRequestVoteResponse (h : TermsFit n) {response : RequestVoteResponse}
    (ht : response.term < 2^64) : TermsFit (n.onRequestVoteResponse response) := by
  rcases Node.onRequestVoteResponse_cases response n with
    ⟨-,he⟩ | ⟨-,-,he⟩ | ⟨-,-,-,he⟩ <;> rw [he]
  · exact h.next ht rfl (.inr ⟨_,rfl,h.current⟩)
  · exact h
  · exact h.next h.current rfl (.inl rfl)

theorem run (h : TermsFit n) (r : Readings) : TermsFit (n.run r) := by
  have hload : TermsFit n.load := by
    unfold Node.load
    split
    · exact h
    · next record hr => exact ⟨h.disk record hr,h.disk,h.calls⟩
  exact hload.next hload.current rfl (.inl rfl)

end TermsFit

/-- Terms stay values of `uint64_t`, in the nodes, in their entries and in the calls. -/
theorem terms_fit_invariant (cfg : Config) : LocalInvariant cfg
    (fun _ n => TermsFit n ∧ Made LogEntry.termFits n)
    (fun rpc => (∀ t ∈ rpc.terms, t < 2^64) ∧ MadeRpc LogEntry.termFits rpc) where
  boot := by
    intro i persist life hp
    refine ⟨⟨Nat.two_pow_pos 64,?_,by simp [Server.boot,Node.create]⟩,
      (made_closed cfg _).boot i persist life ?_⟩
    · intro record hr
      rcases hp with rfl | ⟨n,hn,rfl⟩
      · exact absurd hr (by simp [Server.boot,Node.create])
      · exact hn.1.disk record hr
    · rcases hp with rfl | ⟨n,hn,rfl⟩
      · exact .inl rfl
      · exact .inr ⟨n,hn.2,rfl⟩
  same := by
    rintro i n m ⟨h,hk⟩ hs
    refine ⟨?_,(made_closed cfg _).same i n m hk hs⟩
    obtain ⟨hr,hp,hc,-⟩ := hs
    exact h.next (by rw [hr]; exact h.current) hc (.inl hp)
  sent := fun i n h => ⟨⟨h.1.current,h.1.disk,by simp⟩,(made_closed cfg _).sent i n h.2⟩
  rpc := by
    intro i n life call hi h hc
    refine ⟨?_,(made_closed cfg _).rpc i n life call hi h.2 hc⟩
    have hterm := h.1.calls call hc
    cases call with
    | requestVote peer request => simpa [Call.rpc,Call.term,Rpc.terms] using hterm
    | appendEntries peer request isHeartbeat => simpa [Call.rpc,Call.term,Rpc.terms] using hterm
  fail := by
    intro rpc h
    refine ⟨?_,(made_closed cfg _).fail rpc h.2⟩
    have hterms := h.1
    cases rpc <;> simp_all [Cluster.failCall,Rpc.terms,RequestVoteResponse.empty,
      AppendEntriesResponse.empty]
  move := by
    intro c i e n net _ hn hnet hm
    have hmade := made_move (K := LogEntry.termFits) (Nat.two_pow_pos 64) hn.2
      (fun rpc hrpc => (hnet rpc hrpc).2) (fun _ _ _ _ => hn.1.current) hm
    have hset : ∀ (k : Nat) (new : Rpc), (∀ t ∈ new.terms, t < 2^64) →
        ∀ rpc ∈ c.net.set k new, ∀ t ∈ rpc.terms, t < 2^64 := by
      intro k new hnew rpc hrpc
      rcases List.mem_or_eq_of_mem_set hrpc with hrpc | rfl
      · exact (hnet rpc hrpc).1
      · exact hnew
    suffices hs : TermsFit n ∧ ∀ rpc ∈ net, ∀ t ∈ rpc.terms, t < 2^64 from
      ⟨⟨hs.1,hmade.1⟩,fun rpc hrpc => ⟨hs.2 rpc hrpc,hmade.2 rpc hrpc⟩⟩
    cases hm with
    | run r _ => exact ⟨hn.1.run r,fun rpc hrpc => (hnet rpc hrpc).1⟩
    | timer r => exact ⟨hn.1.onTimer r,fun rpc hrpc => (hnet rpc hrpc).1⟩
    | doLog cmd => exact ⟨hn.1.doLog cmd,fun rpc hrpc => (hnet rpc hrpc).1⟩
    | putLog request _ => exact ⟨hn.1.doLog _,fun rpc hrpc => (hnet rpc hrpc).1⟩
    | voteCall k r src life request response hk hresp =>
      have ht : request.term < 2^64 := (hnet _ (List.mem_of_getElem? hk)).1 _ (by simp [Rpc.terms])
      obtain ⟨hnode,hanswer⟩ := hn.1.onRequestVoteRequest ht
      refine ⟨hnode,hset k _ ?_⟩
      rcases hresp with rfl | rfl
      · simpa [Rpc.terms] using ⟨ht,hanswer⟩
      · simpa [Rpc.terms,RequestVoteResponse.empty] using ht
    | appendCall k r src life request isHeartbeat hk _ =>
      have ht : request.term < 2^64 := (hnet _ (List.mem_of_getElem? hk)).1 _ (by simp [Rpc.terms])
      obtain ⟨hnode,hanswer⟩ := hn.1.onAppendEntriesRequest ht r
      exact ⟨hnode,hset k _ (by simpa [Rpc.terms] using ⟨ht,hanswer⟩)⟩
    | voteReply k dst request response hk =>
      have ht : response.term < 2^64 :=
        (hnet _ (List.mem_of_getElem? hk)).1 _ (by simp [Rpc.terms])
      exact ⟨hn.1.onRequestVoteResponse ht,
        fun rpc hrpc => (hnet rpc (List.mem_of_mem_eraseIdx hrpc)).1⟩
    | appendReply k dst request isHeartbeat response hk =>
      exact ⟨hn.1.onAppendEntriesReponse response isHeartbeat,
        fun rpc hrpc => (hnet rpc (List.mem_of_mem_eraseIdx hrpc)).1⟩

namespace Node

theorem voteGranted_iff (request : RequestVoteRequest) (n : Node) :
    (n.onRequestVoteRequest request).2.voteGranted = true ↔
      n.raft.running = true ∧ n.raft.currentTerm < request.term ∧
        n.raft.candidateLogIndexOld request = false ∧
        n.raft.candidateLogTermOld request = false := by
  rcases onRequestVoteRequest_cases request n with
    ⟨hle,-,hg⟩ | ⟨-,-,hold,he⟩ | ⟨hrun,hlt,hi,ht,he⟩
  · rw [hg]
    constructor
    · intro h
      exact absurd h Bool.false_ne_true
    · rintro ⟨hrun,hlt,-⟩
      have := hle hrun
      omega
  · rw [he]
    constructor
    · intro h
      exact absurd h Bool.false_ne_true
    · rintro ⟨-,-,hi,ht⟩
      rw [hi,ht] at hold
      exact absurd hold Bool.false_ne_true
  · rw [he]
    exact ⟨fun _ => ⟨hrun,hlt,hi,ht⟩,fun _ => rfl⟩

end Node

section Comparison

variable {cfg : Config} {j : CString} {n : Node} {s : SRaft} {e x : LogEntry}

/-- What is left of the two comparisons when the log of the voter is not empty. -/
theorem candidateLogOld_iff (hw : Wired cfg j n) (hl : Contiguous n.raft.logs)
    (he : n.raft.logs.getLast? = some e) (request : RequestVoteRequest)
    (hprev : -1 ≤ request.lastLogIndex) :
    (n.raft.candidateLogIndexOld request = false ∧
        n.raft.candidateLogTermOld request = false) ↔
      e.term ≤ request.lastLogTerm ∧ (request.lastLogTerm = e.term →
        n.raft.logs.length ≤ toU64 request.lastLogIndex+1) := by
  have hn : n.raft.logs ≠ [] := by
    rintro hnil
    rw [hnil] at he
    exact absurd he (by simp)
  obtain ⟨base,hb,hc⟩ := hl
  have hlen := hc.length_le hn
  have hpos : 0 < n.raft.logs.length := List.length_pos_iff.mpr hn
  have hu : u64 (n.raft.logs.length+(2^64-1)) = n.raft.logs.length-1 := by
    unfold u64
    omega
  have hlow : ¬request.lastLogIndex < -1 := by omega
  rw [SRaft.candidateLogTermOld,SRaft.candidateLogIndexOld,he,hw.lastIncludeIndex,
    hw.lastIncludeTerm,toU64_neg_one,hu]
  simp only [Bool.or_eq_false_iff,Bool.and_eq_false_iff,decide_eq_false_iff_not,hlow,
    Nat.not_lt_zero,not_false_eq_true,true_and]
  constructor
  · rintro ⟨hidx,hterm⟩
    refine ⟨by omega,fun heq => ?_⟩
    rcases hidx with hne | hge
    · exact absurd heq hne
    · omega
  · rintro ⟨hterm,hidx⟩
    refine ⟨?_,by omega⟩
    by_cases heq : request.lastLogTerm = e.term
    · have := hidx heq
      exact .inr (by omega)
    · exact .inl heq

theorem voteRequest_empty (h : s.logs = []) :
    s.voteRequest.lastLogIndex = -1 ∧ s.voteRequest.lastLogTerm = 2^64-1 := by
  simp [SRaft.voteRequest,h]

theorem voteRequest_last (hx : s.logs.getLast? = some x) :
    s.voteRequest.lastLogIndex = s.logs.length-1 ∧ s.voteRequest.lastLogTerm = x.term := by
  simp [SRaft.voteRequest,hx]

/-- The request of an empty log passes, since it carries the greatest term; any other is
compared by the last term and the size. -/
theorem voteRequest_passes_iff (hw : Wired cfg j n) (hl : Contiguous n.raft.logs)
    (he : n.raft.logs.getLast? = some e) (hfit : e.termFits) (hs : Contiguous s.logs) :
    (n.raft.candidateLogIndexOld s.voteRequest = false ∧
        n.raft.candidateLogTermOld s.voteRequest = false) ↔
      ∀ x, s.logs.getLast? = some x → e.term ≤ x.term ∧
        (x.term = e.term → n.raft.logs.length ≤ s.logs.length) := by
  have hlow : -1 ≤ s.voteRequest.lastLogIndex := by
    change (-1 : Int) ≤ s.logs.length-1
    omega
  rw [candidateLogOld_iff hw hl he _ hlow]
  cases hx : s.logs.getLast? with
  | none =>
    have hlen := hl.length_le
    obtain ⟨hi,ht⟩ := voteRequest_empty (List.getLast?_eq_none_iff.mp hx)
    have hfit : e.term < 2^64 := hfit
    rw [hi,ht,toU64_neg_one]
    constructor
    · rintro - x hx'
      exact absurd hx' (by simp)
    · intro _
      exact ⟨by omega,fun _ => by omega⟩
  | some x =>
    obtain ⟨hi,ht⟩ := voteRequest_last hx
    have hlen := hs.length_le
    have hpos : 0 < s.logs.length :=
      List.length_pos_iff.mpr (List.ne_nil_of_mem (List.mem_of_getLast? hx))
    have hu : toU64 (s.logs.length-1)+1 = s.logs.length := by
      rw [toU64_of_nonneg (by omega) (by omega)]
      omega
    rw [hi,ht,hu]
    constructor
    · intro h x' hx'
      obtain rfl := Option.some.inj hx'
      exact h
    · intro h
      exact h x rfl

end Comparison

namespace Node

/-- The comparison of the two logs is no test of the last entries: it lets an empty log win
over any other, and takes the sizes of the logs for the last indices when the last terms are
the same. -/
def misjudges (s : SRaft) (n : Node) : Prop :=
  ∃ e, n.raft.logs.getLast? = some e ∧ ∀ x, s.logs.getLast? = some x →
    x.term = e.term ∧ n.raft.logs.length ≤ s.logs.length ∧ x.index < e.index

/-- Where the first indices are zero on both sides, only an empty log is misjudged. -/
theorem misjudges_zero {s : SRaft} {n : Node} (hs : ContiguousFrom 0 s.logs)
    (hn : ContiguousFrom 0 n.raft.logs) :
    n.misjudges s ↔ s.logs = [] ∧ n.raft.logs ≠ [] := by
  constructor
  · rintro ⟨e,he,hmis⟩
    refine ⟨?_,List.ne_nil_of_mem (List.mem_of_getLast? he)⟩
    by_contra hne
    obtain ⟨x,hx⟩ := Option.ne_none_iff_exists'.mp (fun h => hne (List.getLast?_eq_none_iff.mp h))
    obtain ⟨-,hsize,hlt⟩ := hmis x hx
    rw [List.getLast?_eq_getElem?] at he hx
    have hpos : 0 < s.logs.length := List.length_pos_iff.mpr hne
    have hxi := (hs _ x hx).1
    have hei := (hn _ e he).1
    omega
  · rintro ⟨hnil,hne⟩
    obtain ⟨e,he⟩ := Option.ne_none_iff_exists'.mp (fun h => hne (List.getLast?_eq_none_iff.mp h))
    refine ⟨e,he,fun x hx => ?_⟩
    rw [hnil] at hx
    exact absurd hx (by simp)

/-- A voter that gives its vote on the request of `s` has a log that is no more up to date,
unless the comparison of the two logs misjudges them. -/
theorem grant_iff {cfg : Config} {j : CString} {n : Node} {s : SRaft} (hw : Wired cfg j n)
    (hl : Contiguous n.raft.logs) (hfit : ∀ e ∈ n.raft.logs, e.termFits)
    (hs : Contiguous s.logs) :
    ((n.onRequestVoteRequest s.voteRequest).2.voteGranted = true →
        EntryUpToDate s.logs n.raft.logs) ↔
      ¬(n.raft.running = true ∧ n.raft.currentTerm < s.currentTerm ∧ misjudges s n) := by
  rw [voteGranted_iff]
  change (_ ∧ _ < s.currentTerm ∧ _ → _) ↔ _
  cases he : n.raft.logs.getLast? with
  | none =>
    have hnil : n.raft.logs = [] := List.getLast?_eq_none_iff.mp he
    refine ⟨fun _ => ?_,fun _ _ => hnil ▸ .nil _⟩
    rintro ⟨-,-,e,he',-⟩
    rw [he] at he'
    exact absurd he' (by simp)
  | some e =>
    rw [voteRequest_passes_iff hw hl he (hfit e (List.mem_of_getLast? he)) hs]
    constructor
    · rintro h ⟨hrun,hlt,e',he',hmis⟩
      obtain rfl := Option.some.inj (he.symm.trans he')
      have hpass : ∀ x, s.logs.getLast? = some x → e.term ≤ x.term ∧
          (x.term = e.term → n.raft.logs.length ≤ s.logs.length) := by
        intro x hx
        obtain ⟨hterm,hsize,-⟩ := hmis x hx
        exact ⟨hterm.ge,fun _ => hsize⟩
      obtain ⟨x,hx,hnew⟩ := h ⟨hrun,hlt,hpass⟩ e he
      have := hmis x hx
      omega
    · rintro h ⟨hrun,hlt,hpass⟩ e' he'
      obtain rfl := Option.some.inj (he.symm.trans he')
      by_contra hno
      refine h ⟨hrun,hlt,e,he,fun x hx => ?_⟩
      obtain ⟨hterm,hsize⟩ := hpass x hx
      have hold : ¬(e.term < x.term ∨ e.term = x.term ∧ e.index ≤ x.index) :=
        fun hnew => hno ⟨x,hx,hnew⟩
      have heq : x.term = e.term := by omega
      exact ⟨heq,hsize heq,by omega⟩

end Node

namespace Cluster

/-- Whatever two states the candidate and the voter have reached: the vote follows the last
entries of the two logs exactly when the voter does not misjudge them. -/
theorem election_restriction_iff (cfg : Config) (c c' : Cluster) (i j : CString) (r : Readings)
    (h : (machine cfg).Path Machine.always (.initial cfg) c)
    (h' : (machine cfg).Path Machine.always (.initial cfg) c') :
    (((c'.servers j).node.onRequestVoteRequest
        ((c.servers i).node.doElection r).raft.voteRequest).2.voteGranted = true →
          EntryUpToDate (c.raft i).logs (c'.raft j).logs) ↔
      ¬((c'.raft j).running = true ∧
        (c'.raft j).currentTerm < u64 ((c.raft i).currentTerm+1) ∧
        (c'.servers j).node.misjudges (c.raft i)) := by
  have hw := ((wired_invariant cfg).reachable h').1 j
  have hvoter := ((tidy_invariant cfg).reachable h').1 j
  have hcandidate := ((tidy_invariant cfg).reachable h).1 i
  have hfit := (((terms_fit_invariant cfg).reachable h').1 j).2.logs
  have hlogs : ((c.servers i).node.doElection r).raft.logs = (c.raft i).logs := by simp [raft]
  have hterm : ((c.servers i).node.doElection r).raft.currentTerm =
      u64 ((c.raft i).currentTerm+1) := by simp [raft]
  have hiff := Node.grant_iff (s := ((c.servers i).node.doElection r).raft) hw hvoter.logs hfit
    (by rw [hlogs]; exact hcandidate.logs)
  rw [Node.misjudges,hlogs,hterm] at hiff
  exact hiff

/-- A leader logs a command that does not reach the other node. -/
def oneEntry : List Event :=
  [.run ['a'] (.now 0),.run ['b'] (.now 0),.timer ['a'] (.now 451),.deliver 0 (.now 451),
    .respond 0,.doLog ['a'] ['x']]

/-- It votes for that node in the next election, whose log is empty. -/
theorem election_restriction_empty : ∃ c : Cluster,
    (machine .two).Path Machine.always (.initial .two) c ∧
    (c.servers ['b']).node.electionDue (.now 451) ∧
    ((c.servers ['a']).node.onRequestVoteRequest
      ((c.servers ['b']).node.doElection (.now 451)).raft.voteRequest).2.voteGranted = true ∧
    ¬EntryUpToDate (c.raft ['b']).logs (c.raft ['a']).logs := by
  obtain ⟨c,hp,hc⟩ := Machine.exec_any (machine .two) Machine.always (.initial .two)
    oneEntry
    (fun c => (c.servers ['b']).node.electionDue (.now 451) ∧
      ((c.servers ['a']).node.onRequestVoteRequest
        ((c.servers ['b']).node.doElection (.now 451)).raft.voteRequest).2.voteGranted = true ∧
      (c.raft ['b']).logs = [] ∧ (c.raft ['a']).logs = [⟨0,1,0,['x'],true⟩])
    (by decide +kernel)
  obtain ⟨hdue,hgrant,hb,ha⟩ := of_decide_eq_true hc
  refine ⟨c,hp,hdue,hgrant,?_⟩
  rw [ha,hb]
  intro h
  obtain ⟨x,hx,-⟩ := h _ rfl
  exact absurd hx (by simp)

/-- The node with the entry, after a restart, and the voter without one. -/
theorem election_restriction_restart : ∃ c : Cluster,
    (c.servers ['a']).node.electionDue (.now 902) ∧ (c.raft ['a']).logs ≠ [] ∧
    ((((c.servers ['b']).node.onRequestVoteRequest
        ((c.servers ['a']).node.doElection (.now 902)).raft.voteRequest).2.voteGranted = true →
          EntryUpToDate (c.raft ['a']).logs (c.raft ['b']).logs) ↔
      ¬((c.raft ['b']).running = true ∧
        (c.raft ['b']).currentTerm < u64 ((c.raft ['a']).currentTerm+1) ∧
        (c.servers ['b']).node.misjudges (c.raft ['a']))) := by
  obtain ⟨c,hp,hc⟩ := Machine.exec_any (machine .two) Machine.always (.initial .two)
    (oneEntry++[.crash ['a'],.run ['a'] (.now 451)])
    (fun c => (c.servers ['a']).node.electionDue (.now 902) ∧ (c.raft ['a']).logs ≠ [])
    (by decide +kernel)
  obtain ⟨hdue,hlogs⟩ := of_decide_eq_true hc
  exact ⟨c,hdue,hlogs,election_restriction_iff .two c c ['a'] ['b'] (.now 902) hp hp⟩

end Cluster

end SRaftMuduo
