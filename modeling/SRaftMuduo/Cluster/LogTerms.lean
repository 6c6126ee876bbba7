import SRaftMuduo.Cluster.Contiguity

namespace SRaftMuduo

/-- Terms do not go down along the log, and stay within a bound. -/
structure TermOrdered (bound : Nat) (logs : List LogEntry) : Prop where
  sorted : logs.Pairwise (fun x y => x.term ≤ y.term)
  le : ∀ e ∈ logs, e.term ≤ bound

namespace TermOrdered

variable {bound : Nat} {logs more : List LogEntry}

theorem nil (bound : Nat) : TermOrdered bound [] :=
  ⟨List.Pairwise.nil,fun _ h => absurd h List.not_mem_nil⟩

theorem mono (h : TermOrdered bound logs) {bound' : Nat} (hb : bound ≤ bound') :
    TermOrdered bound' logs :=
  ⟨h.sorted,fun e he => (h.le e he).trans hb⟩

/-- The last entry has the greatest term. -/
theorem le_last (h : logs.Pairwise (fun x y => x.term ≤ y.term)) {e x : LogEntry}
    (hl : logs.getLast? = some e) (hx : x ∈ logs) : x.term ≤ e.term := by
  rcases pairwise_last h hl hx with rfl | hle
  · exact le_refl _
  · exact hle

theorem of_last (h : logs.Pairwise (fun x y => x.term ≤ y.term))
    (hl : ∀ e, logs.getLast? = some e → e.term ≤ bound) : TermOrdered bound logs := by
  refine ⟨h,fun x hx => ?_⟩
  obtain ⟨e,he⟩ := Option.ne_none_iff_exists'.mp
    (fun hnone => List.ne_nil_of_mem hx (List.getLast?_eq_none_iff.mp hnone))
  exact (le_last h he hx).trans (hl e he)

theorem snoc (h : TermOrdered bound logs) {e : LogEntry} (he : e.term = bound) :
    TermOrdered bound (logs++[e]) := by
  refine ⟨List.pairwise_append.mpr ⟨h.sorted,List.pairwise_singleton _ e,?_⟩,?_⟩
  · intro x hx y hy
    obtain rfl := List.mem_singleton.mp hy
    exact (h.le x hx).trans he.ge
  · intro x hx
    rcases List.mem_append.mp hx with hx | hx
    · exact h.le x hx
    · obtain rfl := List.mem_singleton.mp hx
      exact he.le

/-- Later entries of a log with consecutive indices have terms at least as high. -/
theorem of_index (h : TermOrdered bound logs) {base : Int} (hc : ContiguousFrom base logs)
    {x y : LogEntry} (hx : x ∈ logs) (hy : y ∈ logs) (hxy : x.index ≤ y.index) :
    x.term ≤ y.term := by
  obtain ⟨i,hi⟩ := List.mem_iff_getElem?.mp hx
  obtain ⟨j,hj⟩ := List.mem_iff_getElem?.mp hy
  have hidx := (hc i x hi).1
  have hjdx := (hc j y hj).1
  obtain ⟨hi',rfl⟩ := List.getElem?_eq_some_iff.mp hi
  obtain ⟨hj',rfl⟩ := List.getElem?_eq_some_iff.mp hj
  by_cases heq : i = j
  · subst heq
    exact le_refl _
  · exact List.pairwise_iff_getElem.mp h.sorted i j hi' hj' (by omega)

end TermOrdered

/-- The entries of a request that parses have ordered terms, none below that of the entry
they are to follow. -/
def OrderedRequest (request : AppendEntriesRequest) : Prop :=
  request.parses = true → request.entries.Pairwise (fun x y => x.term ≤ y.term) ∧
    ∀ e ∈ request.entries, request.prevLogTerm ≤ e.term

def OrderedCall : Call → Prop
  | .requestVote _ _ => True
  | .appendEntries _ request _ => OrderedRequest request

def OrderedRpc : Rpc → Prop
  | .appendCall _ _ _ request _ => OrderedRequest request
  | _ => True

/-- The log in memory and that on disk, each against the term next to it. -/
structure OrderedNode (n : Node) : Prop where
  logs : TermOrdered n.raft.currentTerm n.raft.logs
  disk : ∀ record, n.persist = some record → TermOrdered record.term record.entries
  calls : ∀ call ∈ n.calls, OrderedCall call

/-- A handler that leaves the log, does not lower the term, and may have written a term in
between. -/
structure Node.TermsKept (n m : Node) : Prop where
  logs : m.raft.logs = n.raft.logs
  term : n.raft.currentTerm ≤ m.raft.currentTerm
  disk : m.persist = n.persist ∨ ∃ record, m.persist = some record ∧
    record.entries = n.raft.logs ∧ n.raft.currentTerm ≤ record.term
  calls : m.calls = n.calls

namespace Node

/-- Entries are taken that end above the term of the node. -/
def takesAboveTerm (request : AppendEntriesRequest) (n : Node) : Prop :=
  n.takesEntries request ∧ request.entries.getLast?.any (fun e => n.raft.currentTerm < e.term) =
    true

/-- An election takes the term below that of the last entry: it wraps. -/
def fallsBelowLog (r : Readings) (n : Node) : Prop :=
  n.raft.running = true ∧ n.electionDue r ∧
    n.raft.logs.getLast?.any (fun e => u64 (n.raft.currentTerm+1) < e.term) = true

instance (request : AppendEntriesRequest) (n : Node) : Decidable (n.takesAboveTerm request) :=
  inferInstanceAs (Decidable (_ ∧ _))

instance (r : Readings) (n : Node) : Decidable (n.fallsBelowLog r) :=
  inferInstanceAs (Decidable (_ ∧ _ ∧ _))

end Node

namespace OrderedNode

variable {n m : Node}

theorem kept (h : OrderedNode n) (hk : n.TermsKept m) : OrderedNode m := by
  refine ⟨hk.logs ▸ h.logs.mono hk.term,?_,hk.calls ▸ h.calls⟩
  intro record hr
  rcases hk.disk with hd | ⟨record',hd,he,ht⟩
  · exact h.disk record (hd ▸ hr)
  · obtain rfl := Option.some.inj (hd.symm.trans hr)
    exact he ▸ h.logs.mono ht

/-- What `DoAppendEntries` builds from an ordered log. -/
theorem appendRequest {s : SRaft} {peer : SRaftPeer} (h : TermOrdered s.currentTerm s.logs)
    (hl : Contiguous s.logs) (h0 : 0 ≤ peer.nextIndex) (h1 : peer.nextIndex ≤ 2^63) :
    OrderedRequest (s.appendRequest false peer) := by
  intro hp
  have hstart : toU64 (max 0 peer.nextIndex) = peer.nextIndex.toNat := by
    rw [toU64_of_nonneg (by omega) (by omega)]
    omega
  have hentries : (s.appendRequest false peer).entries =
      (List.range' peer.nextIndex.toNat (toU64 s.lastLogIndex+1-peer.nextIndex.toNat)).map
        s.getLogByIndex := by
    rw [← hstart]
    rfl
  -- an entry that was sent was found, at the index asked for
  have hfound : ∀ j ∈ List.range' peer.nextIndex.toNat
      (toU64 s.lastLogIndex+1-peer.nextIndex.toNat), peer.nextIndex ≤ j ∧
        ∃ e ∈ s.logs, e.index = j ∧ s.getLogByIndex j = e := by
    intro j hj
    have hbound := toU64_lt s.lastLogIndex
    obtain ⟨k,hk,rfl⟩ := List.mem_range'.mp hj
    refine ⟨by omega,?_⟩
    rcases SRaft.getLogByIndex_cases hl
        (show peer.nextIndex.toNat+1*k < 2^64 by omega) with hempty | hin
    · have hmem := List.mem_map_of_mem (f := s.getLogByIndex) hj
      rw [← hentries] at hmem
      have hreq := List.all_eq_true.mp hp _ hmem
      rw [hempty] at hreq
      exact absurd hreq (by decide)
    · exact hin
  obtain ⟨base,hb,hc⟩ := id hl
  rw [hentries]
  constructor
  · refine List.pairwise_map.mpr (List.Pairwise.imp_of_mem ?_ (List.pairwise_lt_range' 1))
    intro j k hj hk hlt
    obtain ⟨-,x,hx,hxi,hxe⟩ := hfound j hj
    obtain ⟨-,y,hy,hyi,hye⟩ := hfound k hk
    rw [hxe,hye]
    exact h.of_index hc hx hy (by omega)
  · intro e he
    obtain ⟨j,hj,rfl⟩ := List.mem_map.mp he
    obtain ⟨hle,x,hx,hxi,hxe⟩ := hfound j hj
    have hprev : (s.appendRequest false peer).prevLogTerm =
        if peer.nextIndex-1 > -1 then (s.getLogByIndex (toU64 (peer.nextIndex-1))).term
        else 0 := rfl
    rw [hprev,hxe]
    split_ifs with hpos
    · rcases SRaft.getLogByIndex_cases hl (toU64_lt (peer.nextIndex-1)) with
        hempty | ⟨y,hy,hyi,hye⟩
      · rw [hempty]
        exact Nat.zero_le _
      · rw [toU64_of_nonneg (by omega) (by omega)] at hyi
        rw [hye]
        exact h.of_index hc hy hx (by omega)
    · exact Nat.zero_le _

theorem startCalls (h : OrderedNode n) (call : SRaftPeer → Call)
    (hc : ∀ name peer, (name,some peer) ∈ n.raft.peers → OrderedCall (call peer)) :
    OrderedNode (n.startCalls call) := by
  refine ⟨h.logs,h.disk,?_⟩
  intro x hx
  rcases List.mem_append.mp hx with hx | hx
  · exact h.calls x hx
  · obtain ⟨name,peer,hm,rfl⟩ := Node.callPeers_mem hx
    exact hc name peer hm

theorem doAppendEntries (h : OrderedNode n) (ht : Tidy n) (isHeartbeat : Bool) :
    OrderedNode (n.doAppendEntries isHeartbeat) := by
  cases isHeartbeat with
  | true =>
    rw [Node.doAppendEntries_heartbeat]
    exact h.startCalls _ (fun _ _ _ _ =>
      ⟨List.Pairwise.nil,fun _ he => absurd he List.not_mem_nil⟩)
  | false =>
    by_cases hp : n.raft.peers = []
    · rw [Node.doAppendEntries_alone n hp]
      exact h.kept ⟨by simp [Node.commitAlone],by simp [Node.commitAlone],
        .inl (by simp [Node.commitAlone]),by simp [Node.commitAlone]⟩
    · rw [Node.doAppendEntries_peers n hp]
      refine h.startCalls _ (fun name peer hm => ?_)
      obtain ⟨h0,h1⟩ := ht.peers name peer hm
      exact appendRequest h.logs ht.logs h0 h1

/-- The one handler that gives itself a new term; the log must not be above it. -/
theorem doElection (h : OrderedNode n) {r : Readings} (hrun : n.raft.running = true)
    (hdue : n.electionDue r) (hok : ¬n.fallsBelowLog r) : OrderedNode (n.doElection r) := by
  have hlogs : TermOrdered (u64 (n.raft.currentTerm+1)) n.raft.logs := by
    refine .of_last h.logs.sorted (fun e he => ?_)
    by_contra hlt
    exact hok ⟨hrun,hdue,by rw [he]; simpa using hlt⟩
  refine ⟨by simpa using hlogs,?_,?_⟩
  · intro record hr
    rw [Node.doElection_persist] at hr
    obtain rfl := Option.some.inj hr
    exact hlogs
  · intro call hc
    rw [Node.doElection_calls] at hc
    rcases List.mem_append.mp hc with hc | hc
    · exact h.calls call hc
    · obtain ⟨_,_,_,rfl⟩ := Node.callPeers_mem hc
      exact trivial

theorem onTimer (h : OrderedNode n) (ht : Tidy n) {r : Readings} (hok : ¬n.fallsBelowLog r) :
    OrderedNode (n.onTimer r) := by
  rcases Node.onTimer_cases r n with
    ⟨-,he⟩ | ⟨-,-,due,he⟩ | ⟨hrun,hdue,he⟩ | ⟨-,-,due,he⟩ <;> rw [he]
  · exact h
  · have hset : OrderedNode {n with raft := {n.raft with dueHeartBeat := due}} :=
      h.kept ⟨rfl,le_refl _,.inl rfl,rfl⟩
    exact hset.doAppendEntries ⟨ht.logs,ht.disk,ht.peers,ht.calls⟩ true
  · have helect := h.doElection hrun hdue hok
    rcases Node.timerFail_cases r (n.doElection r) with he' | ⟨-,due,he'⟩ <;> rw [he']
    · exact helect
    · exact helect.kept ⟨rfl,le_refl _,.inl rfl,rfl⟩
  · exact h.kept ⟨rfl,le_refl _,.inl rfl,rfl⟩

/-- A leader gives a new entry its own term. -/
theorem doLog (h : OrderedNode n) (ht : Tidy n) (cmd : CString) :
    OrderedNode (n.doLog cmd).1 := by
  rcases Node.doLog_cases cmd n with ⟨-,he⟩ | ⟨-,he⟩ | ⟨-,-,hb,he⟩ <;> rw [he]
  · exact h
  · exact h.kept ⟨rfl,le_refl _,.inl rfl,rfl⟩
  · have hlogs := h.logs.snoc (e := Node.newEntry cmd n.raft) rfl
    have hnew := Tidy.newEntry cmd ht.logs hb
    have hd : OrderedNode (Node.dump {n with raft := {n.raft with
        logs := n.raft.logs++[Node.newEntry cmd n.raft]}}) := by
      refine ⟨hlogs,?_,h.calls⟩
      intro record hr
      obtain rfl := Option.some.inj hr
      exact hlogs
    refine hd.doAppendEntries ⟨hnew,?_,ht.peers,ht.calls⟩ false
    intro record hr
    obtain rfl := Option.some.inj hr
    exact hnew

/-- The log is cut behind an entry with the term that the new ones start from. -/
theorem splice {s : SRaft} {request : AppendEntriesRequest}
    (h : s.logs.Pairwise (fun x y => x.term ≤ y.term))
    (hr : request.entries.Pairwise (fun x y => x.term ≤ y.term))
    (hprev : ∀ e ∈ request.entries, request.prevLogTerm ≤ e.term) :
    (Node.splice s request).Pairwise (fun x y => x.term ≤ y.term) := by
  rcases Node.splice_cases s request with ⟨-,he⟩ | ⟨i,e,hi,ht,-,-,he⟩ <;> rw [he]
  · exact hr
  · have hkept : (s.logs.take (i+1)).Pairwise (fun x y => x.term ≤ y.term) :=
      h.sublist (List.take_sublist _ _)
    refine List.pairwise_append.mpr ⟨hkept,hr,fun x hx y hy => ?_⟩
    have hlast : (s.logs.take (i+1)).getLast? = some e := by
      have hlt := (List.getElem?_eq_some_iff.mp hi).1
      rw [List.getLast?_eq_getElem?,List.length_take,Nat.min_eq_left (by omega),
        List.getElem?_take,if_pos (by omega)]
      exact hi
    exact (TermOrdered.le_last hkept hlast hx).trans (ht.le.trans (hprev y hy))

theorem onAppendEntriesRequest (h : OrderedNode n) {request : AppendEntriesRequest}
    (hr : OrderedRequest request) (hp : request.parses = true) (r : Readings)
    (hok : ¬n.takesAboveTerm request) :
    OrderedNode (n.onAppendEntriesRequest request r).1 := by
  rcases Node.onAppendEntriesRequest_cases request r n with
    ⟨-,he⟩ | ⟨-,hle,-,due,he⟩ | ⟨hrun,hle,hne,hbase,logs,hlogs,he⟩ | ⟨-,-,-,-,he⟩ <;> rw [he]
  · exact h
  · exact h.kept ⟨rfl,hle,.inl rfl,rfl⟩
  · obtain ⟨hsorted,hprev⟩ := hr hp
    have hnew : TermOrdered n.raft.currentTerm logs := by
      rw [hlogs]
      refine .of_last (splice h.logs.sorted hsorted hprev) (fun e hlast => ?_)
      rw [Node.splice_last _ hne] at hlast
      by_contra hlt
      exact hok ⟨⟨hrun,hle,hne,hbase⟩,by rw [hlast]; simpa using hlt⟩
    refine ⟨hnew,?_,h.calls⟩
    intro record hrec
    obtain rfl := Option.some.inj hrec
    exact hnew
  · exact h.kept ⟨rfl,le_refl _,.inr ⟨_,rfl,rfl,le_refl _⟩,rfl⟩

theorem onRequestVoteRequest (h : OrderedNode n) (request : RequestVoteRequest) :
    OrderedNode (n.onRequestVoteRequest request).1 := by
  rcases Node.onRequestVoteRequest_cases request n with
    ⟨-,he,-⟩ | ⟨-,hlt,-,he⟩ | ⟨-,hlt,-,-,he⟩ <;> rw [he]
  · exact h
  · exact h.kept ⟨rfl,hlt.le,.inl rfl,rfl⟩
  · exact h.kept ⟨rfl,hlt.le,.inr ⟨_,rfl,rfl,hlt.le⟩,rfl⟩

theorem onRequestVoteResponse (h : OrderedNode n) (response : RequestVoteResponse) :
    OrderedNode (n.onRequestVoteResponse response) := by
  rcases Node.onRequestVoteResponse_cases response n with
    ⟨hlt,he⟩ | ⟨-,-,he⟩ | ⟨-,-,-,he⟩ <;> rw [he]
  · exact h.kept ⟨rfl,hlt.le,.inr ⟨_,rfl,rfl,le_refl _⟩,rfl⟩
  · exact h
  · exact h.kept ⟨rfl,le_refl _,.inl rfl,rfl⟩

theorem onAppendEntriesReponse (h : OrderedNode n) (response : AppendEntriesResponse)
    (isHeartbeat : Bool) : OrderedNode (n.onAppendEntriesReponse response isHeartbeat) := by
  obtain ⟨x,hx,⟨peers,ci,la,hr⟩,hp,hc⟩ :=
    Node.onAppendEntriesReponse_frame response isHeartbeat n
  split_ifs at hx <;> rw [hx] at hr hp
  · exact h.kept ⟨by rw [hr]; rfl,by rw [hr]; exact le_refl _,
      .inr ⟨_,hp,rfl,le_refl _⟩,hc⟩
  · exact h.kept ⟨by rw [hr],by rw [hr],.inl hp,hc⟩

theorem run (h : OrderedNode n) (r : Readings) : OrderedNode (n.run r) := by
  have hload : OrderedNode n.load := by
    unfold Node.load
    split
    · exact h
    · next record hr => exact ⟨h.disk record hr,h.disk,h.calls⟩
  exact hload.kept ⟨rfl,le_refl _,.inl rfl,rfl⟩

end OrderedNode

theorem ordered_closed (cfg : Config) : LocalClosed cfg (fun _ => OrderedNode) OrderedRpc where
  boot := by
    rintro i persist life (rfl | ⟨n,hn,rfl⟩)
    · exact ⟨.nil _,by simp [Server.boot,Node.create],by simp [Server.boot,Node.create]⟩
    · exact ⟨.nil _,hn.disk,by simp [Server.boot,Node.create]⟩
  same := by
    rintro i n m h ⟨hr,hp,hc,-⟩
    exact ⟨hr ▸ h.logs,hp ▸ h.disk,hc ▸ h.calls⟩
  sent := fun i n h => ⟨h.logs,h.disk,by simp⟩
  rpc := by
    intro i n life call _ h hc
    have hcall := h.calls call hc
    cases call with
    | requestVote => exact trivial
    | appendEntries => exact hcall
  fail := by
    intro rpc h
    cases rpc <;> exact trivial

namespace Cluster

/-- The step leaves a log with a last term above that of its node. -/
def termSlip (c : Cluster) : Event → Bool
  | .timer i r => (c.servers i).node.fallsBelowLog r
  | .deliver k _ =>
    match c.net[k]? with
    | some (.appendCall _ dst _ request _) => (c.servers dst).node.takesAboveTerm request
    | _ => false
  | _ => false

def termSound (c : Cluster) (e : Event) : Prop := c.termSlip e = false

instance (c : Cluster) (e : Event) : Decidable (c.termSound e) :=
  inferInstanceAs (Decidable (_ = _))

/-- The terms of the log do not go down, and the last is not above that of the node. -/
def TermsInOrder (s : SRaft) : Prop :=
  s.logs.Pairwise (fun x y => x.term ≤ y.term) ∧
    ∀ e, s.logs.getLast? = some e → e.term ≤ s.currentTerm

variable {cfg : Config} {c c' : Cluster} {e : Event}

theorem ordered_move {i : CString} {n : Node} {net : List Rpc} (hok : c.termSound e)
    (htidy : (∀ i, Tidy (c.servers i).node) ∧ ∀ rpc ∈ c.net, TidyRpc rpc)
    (hn : OrderedNode (c.servers i).node) (hnet : ∀ rpc ∈ c.net, OrderedRpc rpc)
    (hm : c.Move i e n net) : OrderedNode n ∧ ∀ rpc ∈ net, OrderedRpc rpc := by
  have ht := htidy.1 i
  cases hm with
  | run r _ => exact ⟨hn.run r,hnet⟩
  | timer r => exact ⟨hn.onTimer ht (of_decide_eq_false hok),hnet⟩
  | doLog cmd => exact ⟨hn.doLog ht cmd,hnet⟩
  | putLog request _ => exact ⟨hn.doLog ht _,hnet⟩
  | voteCall k r src life request response hk _ =>
    refine ⟨hn.onRequestVoteRequest request,?_⟩
    intro rpc hrpc
    rcases List.mem_or_eq_of_mem_set hrpc with hrpc | rfl
    · exact hnet rpc hrpc
    · exact trivial
  | appendCall k r src life request isHeartbeat hk hp =>
    rw [termSound,termSlip,hk] at hok
    have hreq : OrderedRequest request := hnet _ (List.mem_of_getElem? hk)
    refine ⟨hn.onAppendEntriesRequest hreq hp r (of_decide_eq_false hok),?_⟩
    intro rpc hrpc
    rcases List.mem_or_eq_of_mem_set hrpc with hrpc | rfl
    · exact hnet rpc hrpc
    · exact trivial
  | voteReply k dst request response _ =>
    exact ⟨hn.onRequestVoteResponse response,
      fun rpc hrpc => hnet rpc (List.mem_of_mem_eraseIdx hrpc)⟩
  | appendReply k dst request isHeartbeat response _ =>
    exact ⟨hn.onAppendEntriesReponse response isHeartbeat,
      fun rpc hrpc => hnet rpc (List.mem_of_mem_eraseIdx hrpc)⟩

/-- In every run without a slip the terms of every log are in order. -/
theorem log_terms_in_order (cfg : Config)
    (h : (machine cfg).Path termSound (.initial cfg) c) (i : CString) :
    TermsInOrder (c.raft i) := by
  let I : Cluster → Prop := fun c =>
    ((∀ i, Tidy (c.servers i).node) ∧ ∀ rpc ∈ c.net, TidyRpc rpc) ∧
      (∀ i, OrderedNode (c.servers i).node) ∧ ∀ rpc ∈ c.net, OrderedRpc rpc
  have hI : I c := by
    refine h.invariant (I := I) ?_ ⟨(tidy_invariant cfg).initial,(ordered_closed cfg).initial⟩
    intro s e t hs hok hstep
    exact ⟨(tidy_invariant cfg).step hs.1 hstep,(ordered_closed cfg).step
      (fun i n net _ hm => ordered_move hok hs.1 (hs.2.1 i) hs.2.2 hm) hs.2 hstep⟩
  have hlogs := (hI.2.1 i).logs
  exact ⟨hlogs.sorted,fun e he => hlogs.le e (List.mem_of_getLast? he)⟩

/-- Two terms, a copied log with entries of both, and a restart. -/
theorem log_terms_in_order_two : ∃ c : Cluster,
    (c.raft ['b']).logs.map LogEntry.term = [1,2] ∧ (c.servers ['b']).life = 1 ∧
    TermsInOrder (c.raft ['b']) := by
  obtain ⟨c,hp,hc⟩ := Machine.exec_any (machine .two) termSound (.initial .two)
    [.run ['a'] (.now 0),.run ['b'] (.now 0),.timer ['a'] (.now 451),.deliver 0 (.now 451),
      .respond 0,.doLog ['a'] ['x'],.deliver 0 (.now 451),.respond 0,.timer ['b'] (.now 451),
      .deliver 0 (.now 451),.respond 0,.doLog ['b'] ['y'],.crash ['b'],.run ['b'] (.now 452)]
    (fun c => (c.raft ['b']).logs.map LogEntry.term = [1,2] ∧ (c.servers ['b']).life = 1)
    (by decide +kernel)
  obtain ⟨hterms,hlife⟩ := of_decide_eq_true hc
  exact ⟨c,hterms,hlife,log_terms_in_order .two hp ['b']⟩

/-- The vote request does not reach `b`, which is in term zero when it gets the entry of
term one. -/
theorem log_terms_ahead : ∃ c : Cluster,
    (machine .three).Path Machine.always (.initial .three) c ∧
    (c.raft ['b']).logs.map LogEntry.term = [1] ∧ (c.raft ['b']).currentTerm = 0 ∧
    ¬TermsInOrder (c.raft ['b']) := by
  obtain ⟨c,hp,hc⟩ := Machine.exec_any (machine .three) Machine.always (.initial .three)
    [.run ['a'] (.now 0),.run ['b'] (.now 0),.run ['c'] (.now 0),.timer ['a'] (.now 451),
      .deliver 1 (.now 451),.respond 1,.doLog ['a'] ['x'],.deliver 1 (.now 451)]
    (fun c => (c.raft ['b']).logs.map LogEntry.term = [1] ∧ (c.raft ['b']).currentTerm = 0)
    (by decide +kernel)
  obtain ⟨hlogs,hterm⟩ := of_decide_eq_true hc
  refine ⟨c,hp,hlogs,hterm,fun h => ?_⟩
  obtain ⟨x,hx,ht⟩ := List.map_eq_singleton_iff.mp hlogs
  have hle := h.2 x (by rw [hx]; rfl)
  omega

/-- The condition leaves out no other step: a slip breaks the order at once. -/
theorem termSlip_breaks (hslip : c.termSlip e = true)
    (hs : (machine cfg).step c e = some c') : ∃ i, ¬TermsInOrder (c'.raft i) := by
  have hbreak : ∀ {i n net x}, Moved c c' i n net → n.raft.logs.getLast? = some x →
      n.raft.currentTerm < x.term → ∃ i, ¬TermsInOrder (c'.raft i) := by
    intro i n net x hmoved hx hlt
    refine ⟨i,fun h => ?_⟩
    have hnode : c'.raft i = n.raft := by rw [raft,hmoved.node]
    rw [hnode] at h
    have := h.2 x hx
    omega
  rcases step_cases hs with
    ⟨i,n,net,-,hm,hmoved⟩ | ⟨k,rpc,rfl,-,-⟩ | ⟨i,-,rfl,-⟩ | ⟨hout,-⟩
  · cases hm with
    | timer r =>
      obtain ⟨hrun,hdue,hany⟩ := of_decide_eq_true hslip
      obtain ⟨x,hx,hlt⟩ := (Option.any_eq_true _ _).mp hany
      have hlt : u64 ((c.servers i).node.raft.currentTerm+1) < x.term := by simpa using hlt
      rcases Node.onTimer_cases r (c.servers i).node with
        ⟨hnot,-⟩ | ⟨-,hs,-⟩ | ⟨-,-,he⟩ | ⟨-,hs,-⟩
      · exact absurd hdue (hnot hrun)
      · rw [hdue.1] at hs
        exact absurd hs (by decide)
      · refine hbreak hmoved (x := x) ?_ ?_
        all_goals
          rw [he]
          rcases Node.timerFail_cases r ((c.servers i).node.doElection r) with
            he' | ⟨-,due,he'⟩ <;> rw [he'] <;> simpa
      · rw [hdue.1] at hs
        exact absurd hs (by decide)
    | appendCall k r src life request isHeartbeat hk hp =>
      rw [termSlip,hk] at hslip
      obtain ⟨ht,hany⟩ := of_decide_eq_true hslip
      obtain ⟨x,hx,hlt⟩ := (Option.any_eq_true _ _).mp hany
      obtain ⟨logs,hlogs,he⟩ := Node.onAppendEntriesRequest_takes ht r
      refine hbreak hmoved (x := x) ?_ ?_
      · rw [he]
        change logs.getLast? = some x
        rw [hlogs,Node.splice_last _ ht.2.2.1,hx]
      · rw [he]
        simpa using hlt
    | voteCall k r src life request response hk _ =>
      rw [termSlip,hk] at hslip
      exact absurd hslip Bool.false_ne_true
    | _ => exact absurd hslip Bool.false_ne_true
  · exact absurd hslip Bool.false_ne_true
  · exact absurd hslip Bool.false_ne_true
  · cases e <;> first | exact absurd hslip Bool.false_ne_true | exact absurd hout Bool.false_ne_true

end Cluster
end SRaftMuduo
