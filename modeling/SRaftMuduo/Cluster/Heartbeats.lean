import SRaftMuduo.Cluster.Replica
import SRaftMuduo.Cluster.Restriction

namespace SRaftMuduo

namespace Readings

/-- No `dueElection_` that is made of the reading is before this time. -/
def earliest (r : Readings) : Nat := r.dueMs+intervalElectionLow

theorem drawn.earliest_le {r : Readings} (h : r.drawn) :
    r.earliest ≤ u64 (r.dueMs+r.random) := by
  obtain ⟨hlow,-,hfits⟩ := h
  rw [u64_of_lt hfits]
  exact Nat.add_le_add_left hlow _

end Readings

namespace Node

variable {n m : Node} {t time : Nat} {r : Readings}

theorem voteAnswer_term (request : RequestVoteRequest) (n : Node) :
    (n.onRequestVoteRequest request).2.term ≤ n.raft.currentTerm := by
  unfold onRequestVoteRequest
  dsimp only
  split_ifs
  · exact Nat.zero_le _
  all_goals exact Nat.le_refl _

theorem appendAnswer_term (request : AppendEntriesRequest) (r : Readings) (n : Node) :
    (n.onAppendEntriesRequest request r).2.term = n.raft.currentTerm := by
  rcases onAppendEntriesRequest_cases request r n with
    ⟨-,he⟩ | ⟨-,-,-,due,he⟩ | ⟨-,-,-,-,logs,-,he⟩ | ⟨-,-,-,-,he⟩ <;> rw [he] <;> rfl

/-- A heartbeat sets `dueElection_` anew. -/
def hears (request : AppendEntriesRequest) (n : Node) : Prop :=
  request.entries = [] ∧ n.raft.running = true ∧ n.raft.currentTerm ≤ request.term

instance (request : AppendEntriesRequest) (n : Node) : Decidable (n.hears request) :=
  inferInstanceAs (Decidable (_ ∧ _ ∧ _))

theorem onAppendEntriesRequest_hears {request : AppendEntriesRequest} (h : n.hears request)
    (r : Readings) : (n.onAppendEntriesRequest request r).1 = {n with raft := {n.raft with
      dueElection := u64 (r.dueMs+r.random)
      state := .follower
      currentTerm := request.term}} := by
  obtain ⟨hnil,hrun,hle⟩ := h
  unfold onAppendEntriesRequest
  dsimp only
  rw [if_neg (by rw [hrun]; decide),if_neg (Nat.not_lt_of_le hle),if_pos hnil]

/-- A follower in a term up to `t` whose election is not due before `time`. -/
structure Following (t time : Nat) (n : Node) : Prop where
  state : n.raft.state = .follower
  term : n.raft.currentTerm ≤ t
  disk : n.diskTerm ≤ t
  due : n.raft.running = true → time ≤ n.raft.dueElection
  calls : n.calls = []

namespace Following

theorem same (h : Following t time n) (hr : m.raft = n.raft) (hd : m.diskTerm ≤ t)
    (hc : m.calls = n.calls) : Following t time m := by
  obtain ⟨hstate,hterm,-,hdue,hcalls⟩ := h
  rw [← hr] at hstate hterm hdue
  exact ⟨hstate,hterm,hd,hdue,hc.trans hcalls⟩

/-- The timer finds no election due. -/
theorem onTimer (h : Following t time n) (hms : n.raft.running = true → r.currentMs ≤ time) :
    Following t time (n.onTimer r) := by
  rcases onTimer_cases r n with
    ⟨-,he⟩ | ⟨-,hs,-⟩ | ⟨hrun,⟨-,hdue⟩,-⟩ | ⟨-,hs,-⟩
  · rw [he]
    exact h
  · cases h.state.symm.trans hs
  · have hle := h.due hrun
    have htimer := hms hrun
    omega
  · cases h.state.symm.trans hs

theorem doLog (h : Following t time n) (cmd : CString) : Following t time (n.doLog cmd).1 := by
  rcases doLog_cases cmd n with ⟨-,he⟩ | ⟨-,he⟩ | ⟨-,hs,-,-⟩
  · rw [he]
    exact h
  · rw [he]
    exact h.same rfl h.disk rfl
  · cases h.state.symm.trans hs

theorem onRequestVoteRequest (h : Following t time n) {request : RequestVoteRequest}
    (hle : request.term ≤ t) : Following t time (n.onRequestVoteRequest request).1 := by
  rcases onRequestVoteRequest_cases request n with
    ⟨-,he,-⟩ | ⟨-,-,-,he⟩ | ⟨-,-,-,-,he⟩ <;> rw [he]
  · exact h
  · exact ⟨h.state,hle,h.disk,h.due,h.calls⟩
  · refine ⟨?_,hle,hle,h.due,h.calls⟩
    simp [h.state]

theorem onRequestVoteResponse (h : Following t time n) {response : RequestVoteResponse}
    (hle : response.term ≤ t) : Following t time (n.onRequestVoteResponse response) := by
  rcases onRequestVoteResponse_cases response n with
    ⟨-,he⟩ | ⟨-,-,he⟩ | ⟨-,hs,-,-⟩
  · rw [he]
    exact ⟨rfl,hle,h.term,h.due,h.calls⟩
  · rw [he]
    exact h
  · cases h.state.symm.trans hs

/-- A heartbeat puts the election off; a request with entries does not. -/
theorem onAppendEntriesRequest (h : Following t time n) {request : AppendEntriesRequest}
    (hle : request.term ≤ t) (hr : r.drawn) :
    Following t (if n.hears request then r.earliest else time)
      (n.onAppendEntriesRequest request r).1 := by
  split_ifs with hears
  · rw [onAppendEntriesRequest_hears hears]
    exact ⟨rfl,hle,h.disk,fun _ => hr.earliest_le,h.calls⟩
  · rcases onAppendEntriesRequest_cases request r n with
      ⟨-,he⟩ | ⟨hrun,hold,hnil,-⟩ | ⟨-,-,-,-,logs,-,he⟩ | ⟨-,-,-,-,he⟩
    · rw [he]
      exact h
    · exact absurd ⟨hnil,hrun,hold⟩ hears
    · rw [he]
      exact ⟨h.state,h.term,h.term,h.due,h.calls⟩
    · rw [he]
      exact ⟨h.state,h.term,h.term,h.due,h.calls⟩

theorem onAppendEntriesReponse (h : Following t time n) (response : AppendEntriesResponse)
    (isHeartbeat : Bool) :
    Following t time (n.onAppendEntriesReponse response isHeartbeat) := by
  obtain ⟨m,hm,⟨peers,ci,la,hr⟩,hp,hc⟩ := onAppendEntriesReponse_frame response isHeartbeat n
  have hs : n.raft.state ≠ .leader := by
    rw [h.state]
    decide
  rw [if_neg fun hlead => hs hlead.1] at hm
  subst hm
  refine ⟨by rw [hr]; exact h.state,by rw [hr]; exact h.term,?_,?_,hc.trans h.calls⟩
  · unfold diskTerm
    rw [hp]
    exact h.disk
  · rw [hr]
    exact h.due

theorem run (h : Following t time n) (hr : r.drawn) :
    Following t r.earliest (n.run r) := by
  have hdisk : (n.run r).diskTerm ≤ t := by
    unfold diskTerm
    rw [run_persist]
    exact h.disk
  cases hp : n.persist with
  | none =>
    have he : n.load = n := by rw [load,hp]
    refine ⟨?_,?_,hdisk,fun _ => hr.earliest_le,?_⟩
    all_goals rw [Node.run,he]
    · exact h.state
    · exact h.term
    · exact h.calls
  | some record =>
    have he : n.load = {n with raft := {n.raft with
        currentTerm := record.term, votedFor := record.voteFor, logs := record.entries}} := by
      rw [load,hp]
    refine ⟨?_,?_,hdisk,fun _ => hr.earliest_le,?_⟩
    all_goals rw [Node.run,he]
    · exact h.state
    · have hd := h.disk
      rw [diskTerm,hp] at hd
      exact hd
    · exact h.calls

end Following

/-- The leader of the term `t`. -/
structure Leading (t : Nat) (n : Node) : Prop where
  state : n.raft.state = .leader
  running : n.raft.running = true
  term : n.raft.currentTerm = t
  calls : ∀ call ∈ n.calls, call.term = t

namespace Leading

theorem same (h : Leading t n) (hs : m.raft.state = n.raft.state)
    (hr : m.raft.running = n.raft.running) (ht : m.raft.currentTerm = n.raft.currentTerm)
    (hc : m.calls = n.calls) : Leading t m :=
  ⟨hs.trans h.state,hr.trans h.running,ht.trans h.term,by rw [hc]; exact h.calls⟩

theorem doAppendEntries (h : Leading t n) (isHeartbeat : Bool) :
    Leading t (n.doAppendEntries isHeartbeat) := by
  obtain ⟨ci,la,hr⟩ := doAppendEntries_raft isHeartbeat n
  refine ⟨by rw [hr]; exact h.state,by rw [hr]; exact h.running,by rw [hr]; exact h.term,?_⟩
  intro call hcall
  rw [doAppendEntries_calls] at hcall
  cases List.mem_append.mp hcall with
  | inl hold => exact h.calls call hold
  | inr hnew =>
    obtain ⟨name,peer,-,rfl⟩ := callPeers_mem hnew
    have hterm : (n.raft.appendRequest isHeartbeat peer).term = n.raft.currentTerm := by
      cases isHeartbeat <;> rfl
    exact hterm.trans h.term

theorem onTimer (h : Leading t n) (r : Readings) : Leading t (n.onTimer r) := by
  rcases onTimer_cases r n with
    ⟨-,he⟩ | ⟨-,-,due,he⟩ | ⟨-,⟨hs,-⟩,-⟩ | ⟨-,hs,-⟩
  · rw [he]
    exact h
  · rw [he]
    have hdue : Leading t {n with raft := {n.raft with dueHeartBeat := due}} :=
      h.same rfl rfl rfl rfl
    exact hdue.doAppendEntries true
  · cases h.state.symm.trans hs
  · cases h.state.symm.trans hs

theorem doLog (h : Leading t n) (cmd : CString) : Leading t (n.doLog cmd).1 := by
  rcases doLog_cases cmd n with ⟨-,he⟩ | ⟨-,he⟩ | ⟨-,-,-,he⟩ <;> rw [he]
  · exact h
  · exact h.same rfl rfl rfl rfl
  · have hlogged : Leading t
        (dump {n with raft := {n.raft with logs := n.raft.logs++[newEntry cmd n.raft]}}) :=
      h.same rfl rfl rfl rfl
    exact hlogged.doAppendEntries false

theorem onRequestVoteRequest (h : Leading t n) {request : RequestVoteRequest}
    (hle : request.term ≤ t) : (n.onRequestVoteRequest request).1 = n := by
  rcases onRequestVoteRequest_cases request n with
    ⟨-,he,-⟩ | ⟨-,hlt,-,-⟩ | ⟨-,hlt,-,-,-⟩
  · exact he
  · exact absurd (h.term ▸ hlt) (Nat.not_lt_of_le hle)
  · exact absurd (h.term ▸ hlt) (Nat.not_lt_of_le hle)

theorem onAppendEntriesRequest (h : Leading t n) {request : AppendEntriesRequest}
    (hlt : request.term < t) : (n.onAppendEntriesRequest request r).1 = n := by
  have hnot : ¬n.raft.currentTerm ≤ request.term := by
    rw [h.term]
    exact Nat.not_le_of_lt hlt
  rcases onAppendEntriesRequest_cases request r n with
    ⟨-,he⟩ | ⟨-,hle,-⟩ | ⟨-,hle,-⟩ | ⟨-,hle,-⟩
  · rw [he]
  · exact absurd hle hnot
  · exact absurd hle hnot
  · exact absurd hle hnot

theorem onRequestVoteResponse (h : Leading t n) {response : RequestVoteResponse}
    (hle : response.term ≤ t) : n.onRequestVoteResponse response = n := by
  rcases onRequestVoteResponse_cases response n with
    ⟨hlt,-⟩ | ⟨-,-,he⟩ | ⟨-,hs,-,-⟩
  · exact absurd (h.term ▸ hlt) (Nat.not_lt_of_le hle)
  · exact he
  · cases h.state.symm.trans hs

theorem onAppendEntriesReponse (h : Leading t n) {response : AppendEntriesResponse}
    (hle : response.term ≤ t) (isHeartbeat : Bool) :
    Leading t (n.onAppendEntriesReponse response isHeartbeat) := by
  obtain ⟨m,hm,⟨peers,ci,la,hr⟩,-,hc⟩ := onAppendEntriesReponse_frame response isHeartbeat n
  have hnot : ¬n.raft.currentTerm < response.term := by
    rw [h.term]
    exact Nat.not_lt_of_le hle
  rw [if_neg fun hlead => hnot hlead.2] at hm
  subst hm
  exact h.same (by rw [hr]) (by rw [hr]) (by rw [hr]) hc

end Leading

end Node

/-- An append request of the term `t`, or of a later one, on its way to the leader. -/
def Rpc.challenges (l : CString) (t : Nat) : Rpc → Prop
  | .appendCall _ dst _ request _ => dst = l ∧ t ≤ request.term
  | _ => False

instance (l : CString) (t : Nat) (rpc : Rpc) : Decidable (rpc.challenges l t) := by
  unfold Rpc.challenges
  split <;> infer_instance

/-- A message with no term above `t` that does not turn the leader into a follower. -/
def Rpc.Below (l : CString) (t : Nat) (rpc : Rpc) : Prop :=
  (∀ x ∈ rpc.terms, x ≤ t) ∧ ¬rpc.challenges l t

namespace Cluster

/-- Up to when every node starts no election, since it was started or took a heartbeat. -/
def patience (time : CString → Nat) (c : Cluster) : Event → CString → Nat
  | .run i r => Function.update time i r.earliest
  | .deliver k r =>
    match c.net[k]? with
    | some (.appendCall _ dst _ request _) =>
      if (c.servers dst).node.hears request then Function.update time dst r.earliest else time
    | _ => time
  | _ => time

/-- The process of the leader lives on, and no timer of another node that runs goes off after
its patience has run out. -/
def timely (l : CString) (s : Cluster × (CString → Nat)) : Event → Prop
  | .run _ r => r.drawn
  | .deliver _ r => r.drawn
  | .timer i r => i ≠ l → (s.1.raft i).running = true → r.currentMs ≤ s.2 i
  | .crash i => i ≠ l
  | _ => True

instance (l : CString) (s : Cluster × (CString → Nat)) (e : Event) : Decidable (timely l s e) := by
  unfold timely
  split <;> infer_instance

/-- `l` leads in the term `t`; all others are followers, in terms up to `t` in memory and on
disk, with no election due before their time; and no message in flight has a newer term or is
an append request of the term `t` for the leader. -/
structure Led (cfg : Config) (l : CString) (t : Nat) (s : Cluster × (CString → Nat)) : Prop where
  leader : Node.Leading t (s.1.servers l).node
  others : ∀ i ∈ cfg.names, i ≠ l → Node.Following t (s.2 i) (s.1.servers i).node
  net : ∀ rpc ∈ s.1.net, rpc.Below l t

variable {cfg : Config} {l i j : CString} {t : Nat} {c c' : Cluster} {time : CString → Nat}
  {e : Event} {n : Node} {net : List Rpc}

theorem patience_other (hm : c.Move i e n net) (hj : j ≠ i) :
    patience time c e j = time j := by
  cases hm with
  | run r _ => exact Function.update_of_ne hj _ _
  | timer | doLog | putLog | voteReply | appendReply => rfl
  | voteCall k r src life request response hk _ => rw [patience,hk]
  | appendCall k r src life request isHeartbeat hk _ =>
    rw [patience,hk]
    dsimp only
    split_ifs
    · exact Function.update_of_ne hj _ _
    · rfl

/-- The answers have the term of the node that gives them. -/
theorem below_move (hterm : (c.raft i).currentTerm ≤ t) (h : ∀ rpc ∈ c.net, rpc.Below l t)
    (hm : c.Move i e n net) : ∀ rpc ∈ net, rpc.Below l t := by
  have hset (k : Nat) {new : Rpc} (hnew : new.Below l t) :
      ∀ rpc ∈ c.net.set k new, rpc.Below l t := by
    intro rpc hrpc
    cases List.mem_or_eq_of_mem_set hrpc with
    | inl hrpc => exact h rpc hrpc
    | inr hrpc =>
      rw [hrpc]
      exact hnew
  cases hm with
  | run | timer | doLog | putLog => exact h
  | voteCall k r src life request response hk hr =>
    have hrequest := (h _ (List.mem_of_getElem? hk)).1 request.term List.mem_cons_self
    have hresponse : response.term ≤ t := by
      obtain rfl | rfl := hr
      · exact (Node.voteAnswer_term request _).trans hterm
      · exact Nat.zero_le _
    exact hset k ⟨by simp [Rpc.terms,hrequest,hresponse],id⟩
  | appendCall k r src life request isHeartbeat hk _ =>
    have hrequest := (h _ (List.mem_of_getElem? hk)).1 request.term List.mem_cons_self
    have hresponse := (Node.appendAnswer_term request r (c.servers i).node).le.trans hterm
    exact hset k ⟨by simp [Rpc.terms,hrequest,hresponse],id⟩
  | voteReply | appendReply => exact fun rpc hrpc => h rpc (List.mem_of_mem_eraseIdx hrpc)

theorem following_move (h : Node.Following t (time i) (c.servers i).node)
    (hnet : ∀ rpc ∈ c.net, rpc.Below l t) (hok : timely l (c,time) e) (hi : i ≠ l)
    (hm : c.Move i e n net) : Node.Following t (patience time c e i) n := by
  cases hm with
  | run r _ =>
    have he : patience time c (.run i r) i = r.earliest := Function.update_self i _ time
    rw [he]
    exact h.run hok
  | timer r => exact h.onTimer (hok hi)
  | doLog cmd => exact h.doLog cmd
  | putLog request _ => exact h.doLog _
  | voteCall k r src life request response hk _ =>
    have hrequest := (hnet _ (List.mem_of_getElem? hk)).1 request.term List.mem_cons_self
    have he : patience time c (.deliver k r) i = time i := by rw [patience,hk]
    rw [he]
    exact h.onRequestVoteRequest hrequest
  | appendCall k r src life request isHeartbeat hk _ =>
    have hrequest := (hnet _ (List.mem_of_getElem? hk)).1 request.term List.mem_cons_self
    have he : patience time c (.deliver k r) i =
        if (c.servers i).node.hears request then r.earliest else time i := by
      rw [patience,hk]
      dsimp only
      split_ifs
      · exact Function.update_self i _ time
      · rfl
    rw [he]
    exact h.onAppendEntriesRequest hrequest hok
  | voteReply k dst request response hk =>
    exact h.onRequestVoteResponse ((hnet _ (List.mem_of_getElem? hk)).1 _
      (List.mem_cons_of_mem _ List.mem_cons_self))
  | appendReply k dst request isHeartbeat response hk =>
    exact h.onAppendEntriesReponse response isHeartbeat

theorem leading_move (h : Node.Leading t (c.servers l).node)
    (hnet : ∀ rpc ∈ c.net, rpc.Below l t) (hm : c.Move l e n net) : Node.Leading t n := by
  cases hm with
  | run r hrun => cases h.running.symm.trans hrun
  | timer r => exact h.onTimer r
  | doLog cmd => exact h.doLog cmd
  | putLog request _ => exact h.doLog _
  | voteCall k r src life request response hk _ =>
    rw [h.onRequestVoteRequest ((hnet _ (List.mem_of_getElem? hk)).1 _ List.mem_cons_self)]
    exact h
  | appendCall k r src life request isHeartbeat hk _ =>
    have hlt : request.term < t :=
      Nat.lt_of_not_le fun hle => (hnet _ (List.mem_of_getElem? hk)).2 ⟨rfl,hle⟩
    rw [h.onAppendEntriesRequest hlt]
    exact h
  | voteReply k dst request response hk =>
    rw [h.onRequestVoteResponse ((hnet _ (List.mem_of_getElem? hk)).1 _
      (List.mem_cons_of_mem _ List.mem_cons_self))]
    exact h
  | appendReply k dst request isHeartbeat response hk =>
    exact h.onAppendEntriesReponse ((hnet _ (List.mem_of_getElem? hk)).1 _
      (List.mem_cons_of_mem _ List.mem_cons_self)) isHeartbeat

theorem below_call {call : Call} {src : CString} {life : Nat} (hterm : call.term = t)
    (hpeer : call.peer ≠ l) : (call.rpc src life).Below l t := by
  cases call with
  | requestVote peer request => exact ⟨List.forall_mem_singleton.mpr hterm.le,id⟩
  | appendEntries peer request isHeartbeat =>
    exact ⟨List.forall_mem_singleton.mpr hterm.le,fun hc => hpeer hc.1⟩

theorem below_fail {rpc : Rpc} (h : rpc.Below l t) : (failCall rpc).Below l t := by
  have hrequest : ∀ x ∈ (failCall rpc).terms, x ≤ t := by
    have hterms := h.1
    cases rpc <;> simp_all [failCall,Rpc.terms,RequestVoteResponse.empty,
      AppendEntriesResponse.empty]
  refine ⟨hrequest,?_⟩
  cases rpc <;> exact id

theorem Led.move (hc : cfg.Symmetric) (h : Led cfg l t (c,time)) (hok : timely l (c,time) e)
    (hlive : c.live cfg i) (hm : c.Move i e n net) (hmoved : Moved c c' i n net)
    (hpeers : ∀ call ∈ n.calls, call.peer ∈ cfg.peersOf i) :
    Led cfg l t (c',patience time c e) := by
  by_cases hil : i = l
  · subst hil
    have hlead := leading_move h.leader h.net hm
    have hnet := below_move h.leader.term.le h.net hm
    refine ⟨?_,fun j hj hji => ?_,hmoved.each_rpc hnet fun call hcall => ?_⟩
    · rw [hmoved.node]
      exact ⟨hlead.state,hlead.running,hlead.term,nofun⟩
    · rw [hmoved.other j hji]
      dsimp only
      rw [patience_other hm hji]
      exact h.others j hj hji
    · refine below_call (hlead.calls call hcall) fun heq => ?_
      have hself := hpeers call hcall
      rw [heq] at hself
      exact hc.not_peer hlive.1 hself
  · have hfollow := following_move (h.others i hlive.1 hil) h.net hok hil hm
    have hnet := below_move (h.others i hlive.1 hil).term h.net hm
    refine ⟨?_,fun j hj hjl => ?_,hmoved.each_rpc hnet fun call hcall => ?_⟩
    · rw [hmoved.other l (Ne.symm hil)]
      exact h.leader
    · by_cases hji : j = i
      · rw [hji,hmoved.node]
        exact hfollow.same rfl hfollow.disk hfollow.calls.symm
      · rw [hmoved.other j hji]
        dsimp only
        rw [patience_other hm hji]
        exact h.others j hj hjl
    · rw [hfollow.calls] at hcall
      cases hcall

theorem Led.step (hc : cfg.Symmetric)
    (hw : (∀ i, Wired cfg i (c.servers i).node) ∧ ∀ rpc ∈ c.net, WiredRpc cfg rpc)
    (h : Led cfg l t (c,time)) (hok : timely l (c,time) e)
    (hs : (machine cfg).step c e = some c') : Led cfg l t (c',patience time c e) := by
  rcases step_cases hs with
    ⟨i,n,net,hlive,hm,hmoved⟩ | ⟨k,rpc,rfl,hk,rfl⟩ | ⟨i,-,rfl,rfl⟩ | ⟨hout,hq⟩
  · have hwired := (wired_invariant cfg).move c i e n net hlive (hw.1 i) hw.2 hm
    exact h.move hc hok hlive hm hmoved hwired.1.calls
  · exact ⟨h.leader,h.others,failed_each hk h.net below_fail⟩
  · have hil : i ≠ l := hok
    refine ⟨?_,fun j hj hjl => ?_,h.net⟩
    · have hleader := h.leader
      simpa [crashed,Ne.symm hil] using hleader
    · refine crashed_each (P := fun j s => j ∈ cfg.names → j ≠ l →
        Node.Following t (time j) s.node) (fun hi _ => ?_) (fun j _ => h.others j) j hj hjl
      have hold := h.others i hi hil
      exact ⟨rfl,Nat.zero_le _,hold.disk,(by intro h; cases h),rfl⟩
  · have htime : patience time c e = time := by
      cases e <;> first | rfl | cases hout
    rw [htime]
    refine ⟨?_,fun j hj hjl => ?_,by rw [hq.net]; exact h.net⟩
    · obtain ⟨hraft,-,hcalls,-⟩ := hq.node l
      exact h.leader.same (by rw [hraft]) (by rw [hraft]) (by rw [hraft]) hcalls
    · obtain ⟨hraft,hdisk,hcalls,-⟩ := hq.node j
      refine (h.others j hj hjl).same hraft ?_ hcalls
      have hold := (h.others j hj hjl).disk
      rw [Node.diskTerm] at hold ⊢
      rw [hdisk]
      exact hold

/-- A leader that all others follow, with no message ahead of it, stays the only one, in its
term, while its process lives on and heartbeats come before anybody has waited
`interval_election_low` for one. -/
theorem leader_stays {c₀ : Cluster} {time₀ : CString → Nat} (hc : cfg.Symmetric)
    (h₀ : (machine cfg).Path Machine.always (.initial cfg) c₀) (hled : Led cfg l t (c₀,time₀))
    (h : ((machine cfg).withGhost patience).Path (timely l) (c₀,time₀) (c,time)) :
    ((c.raft l).state = .leader ∧ (c.raft l).running = true ∧ (c.raft l).currentTerm = t) ∧
      ∀ i ∈ cfg.names, i ≠ l → (c.raft i).state = .follower ∧ (c.raft i).currentTerm ≤ t := by
  have hinv := h.invariant (I := fun s => Led cfg l t s ∧
    (∀ i, Wired cfg i (s.1.servers i).node) ∧ ∀ rpc ∈ s.1.net, WiredRpc cfg rpc) ?step
    ⟨hled,(wired_invariant cfg).reachable h₀⟩
  · obtain ⟨⟨hleader,hothers,-⟩,-⟩ := hinv
    exact ⟨⟨hleader.state,hleader.running,hleader.term⟩,fun i hi hil =>
      ⟨(hothers i hi hil).state,(hothers i hi hil).term⟩⟩
  · rintro ⟨c,time⟩ e ⟨c',time'⟩ ⟨hl,hw⟩ hok hs
    obtain ⟨hs,rfl⟩ := Machine.withGhost_step hs
    exact ⟨hl.step hc hw hok hs,(wired_invariant cfg).step hw hs⟩

/-- A heartbeat, a command, and a restart of the follower before its election is due. -/
theorem leader_stays_restart : ∃ c : Cluster, (c.raft ['b']).dueElection = 1400 ∧
    (c.raft ['a']).state = .leader ∧ (c.raft ['b']).state = .follower := by
  obtain ⟨c₀,h₀,hstart⟩ := Machine.exec_any (machine .two) Machine.always (.initial .two)
    [.run ['a'] (.now 0),.run ['b'] (.now 200),.timer ['a'] (.now 451),.deliver 0 (.now 451),
      .respond 0]
    (fun c => decide (c.net.length = 0 ∧ (c.raft ['a']).state = .leader ∧
        (c.raft ['a']).running = true ∧ (c.raft ['a']).currentTerm = 1 ∧
        (c.servers ['a']).node.calls.length = 0 ∧ (c.raft ['b']).state = .follower ∧
        (c.raft ['b']).currentTerm = 1 ∧ (c.servers ['b']).node.diskTerm = 1 ∧
        (c.raft ['b']).dueElection = 650 ∧ (c.servers ['b']).node.calls.length = 0) &&
      (((machine .two).withGhost patience).exec (timely ['a']) (c,fun _ => 650)
        [.timer ['a'] (.now 482),.deliver 0 (.now 483),.respond 0,.timer ['b'] (.now 933),
          .doLog ['a'] ['x'],.crash ['b'],.run ['b'] ⟨940,940,940,460⟩,.deliver 0 (.now 941),
          .timer ['b'] (.now 1390)]).any
        fun (s : Cluster × (CString → Nat)) => decide ((s.1.raft ['b']).dueElection = 1400))
    (by decide +kernel)
  obtain ⟨hstate,hrun⟩ := Bool.and_eq_true_iff.mp hstart
  obtain ⟨hnet,hlead,hrunning,hterm,hcalls,hfollows,hle,hdisk,hdue,hquiet⟩ :=
    of_decide_eq_true hstate
  obtain ⟨⟨c,time⟩,h,hend⟩ := Machine.exec_any _ _ _ _ _ hrun
  have hled : Led .two ['a'] 1 (c₀,fun _ => 650) := by
    refine ⟨⟨hlead,hrunning,hterm,fun call hcall => ?_⟩,fun i hi hne => ?_,fun rpc hrpc => ?_⟩
    · rw [List.length_eq_zero_iff.mp hcalls] at hcall
      cases hcall
    · obtain rfl | rfl := List.mem_pair.mp hi
      · exact absurd rfl hne
      · exact ⟨hfollows,hle.le,hdisk.le,fun _ => hdue.ge,List.length_eq_zero_iff.mp hquiet⟩
    · rw [List.length_eq_zero_iff.mp hnet] at hrpc
      cases hrpc
  obtain ⟨⟨hstays,-⟩,hothers⟩ := leader_stays Config.two_symmetric h₀ hled h
  exact ⟨c,of_decide_eq_true hend,hstays,(hothers ['b'] (by decide) (by decide)).1⟩

end Cluster

end SRaftMuduo
