import SRaftMuduo.Raft.Lifetime

namespace SRaftMuduo

/-- The term of the message that an event hands to the node. -/
def NodeEvent.messageTerm : NodeEvent → Option Nat
  | .voteRequest request => some request.term
  | .voteResponse response => some response.term
  | .appendRequest request _ => some request.term
  | .appendResponse response _ => some response.term
  | _ => none

def NodeEvent.isAppendRequest : NodeEvent → Bool
  | .appendRequest _ _ => true
  | _ => false

namespace Node

/-- From `n` to `m` a message was handled as every newer term asks for: the node takes the
term and follows, and an AppendEntries of its own term takes a candidate back too. -/
structure FollowsTerm (e : NodeEvent) (t : Nat) (n m : Node) : Prop where
  newer : n.raft.currentTerm < t → m.raft.currentTerm = t ∧ m.raft.state = .follower
  same : e.isAppendRequest = true → n.raft.currentTerm = t → n.raft.state ≠ .leader →
    m.raft.state = .follower

/-- The messages of which the handlers make that. -/
def heedsTerm (n : Node) : NodeEvent → Prop
  | .voteRequest request => n.raft.currentTerm < request.term →
    n.raft.state = .follower ∨ n.raft.state = .leader ∧
      n.raft.candidateLogIndexOld request = false ∧ n.raft.candidateLogTermOld request = false
  | .appendRequest request _ => request.entries = [] ∨ request.term < n.raft.currentTerm ∨
    request.term = n.raft.currentTerm ∧ n.raft.state ≠ .candidate
  | .appendResponse response _ => response.term ≤ n.raft.currentTerm
  | _ => True

instance (n : Node) (e : NodeEvent) : Decidable (n.heedsTerm e) := by
  unfold heedsTerm
  split <;> infer_instance

variable {n : Node}

/-- A vote takes a leader back but no candidate, and a refusal takes nobody back. -/
theorem voteRequest_follows (hrun : n.raft.running = true) (request : RequestVoteRequest) :
    FollowsTerm (.voteRequest request) request.term n (n.onRequestVoteRequest request).1 ↔
      n.heedsTerm (.voteRequest request) := by
  have hno : ∀ m, (n.raft.currentTerm < request.term →
        m.raft.currentTerm = request.term ∧ m.raft.state = .follower) →
      FollowsTerm (.voteRequest request) request.term n m :=
    fun m h => ⟨h,fun h => absurd h Bool.false_ne_true⟩
  rcases onRequestVoteRequest_cases request n with
    ⟨hold,-,-⟩ | ⟨-,hlt,hlog,he⟩ | ⟨-,hlt,hindex,hterm,he⟩
  · have hle := hold hrun
    exact ⟨fun _ hlt => by omega,fun _ => hno _ (fun hlt => by omega)⟩
  · rw [he]
    constructor
    · intro h _
      exact .inl (h.newer hlt).2
    · intro h
      rcases h hlt with hs | ⟨-,hi,ht⟩
      · exact hno _ (fun _ => ⟨rfl,hs⟩)
      · rw [hi,ht] at hlog
        exact absurd hlog Bool.false_ne_true
  · rw [he]
    constructor
    · intro h _
      have hs := (h.newer hlt).2
      cases hstate : n.raft.state with
      | follower => exact .inl rfl
      | leader => exact .inr ⟨rfl,hindex,hterm⟩
      | candidate =>
        simp only [dump_raft,hstate] at hs
        exact absurd hs (by decide)
    · intro h
      refine hno _ (fun _ => ⟨rfl,?_⟩)
      rcases h hlt with hs | ⟨hs,-⟩ <;> simp [hs]

/-- Only a heartbeat brings its term and the role of a follower. -/
theorem appendRequest_follows (hrun : n.raft.running = true) (request : AppendEntriesRequest)
    (r : Readings) : FollowsTerm (.appendRequest request r) request.term n
      (n.onAppendEntriesRequest request r).1 ↔ n.heedsTerm (.appendRequest request r) := by
  -- entries leave both as they are
  have hsame : ∀ m : Node, request.entries ≠ [] → n.raft.currentTerm ≤ request.term →
      m.raft.state = n.raft.state → m.raft.currentTerm = n.raft.currentTerm →
      (FollowsTerm (.appendRequest request r) request.term n m ↔
        n.heedsTerm (.appendRequest request r)) := by
    intro m hne hle hs ht
    constructor
    · intro h
      have hterm : n.raft.currentTerm = request.term := by
        by_contra hneq
        have := (h.newer (by omega)).1
        omega
      refine .inr (.inr ⟨hterm.symm,?_⟩)
      intro hcand
      have hf := h.same rfl hterm (by rw [hcand]; decide)
      rw [hs,hcand] at hf
      exact absurd hf (by decide)
    · rintro (hnil | hlt | ⟨heq,hcand⟩)
      · exact absurd hnil hne
      · omega
      · refine ⟨fun hlt => by omega,fun _ _ hl => ?_⟩
        rw [hs]
        cases hstate : n.raft.state with
        | follower => rfl
        | candidate => exact absurd hstate hcand
        | leader => exact absurd hstate hl
  rcases onAppendEntriesRequest_cases request r n with
    ⟨hold,he⟩ | ⟨-,hle,hnil,due,he⟩ | ⟨-,hle,hne,-,logs,-,he⟩ | ⟨-,hle,hne,-,he⟩ <;> rw [he]
  · have hlt := hold hrun
    exact ⟨fun _ => .inr (.inl hlt),fun _ => ⟨fun h => by omega,fun _ h => by omega⟩⟩
  · exact ⟨fun _ => .inl hnil,fun _ => ⟨fun _ => ⟨rfl,rfl⟩,fun _ _ _ => rfl⟩⟩
  · exact hsame _ hne hle rfl rfl
  · exact hsame _ hne hle rfl rfl

theorem voteResponse_follows (response : RequestVoteResponse) :
    FollowsTerm (.voteResponse response) response.term n
      (n.onRequestVoteResponse response) := by
  refine ⟨fun hlt => ?_,fun h => absurd h Bool.false_ne_true⟩
  rcases onRequestVoteResponse_cases response n with ⟨-,he⟩ | ⟨hle,-⟩ | ⟨hle,-⟩
  · rw [he]
    exact ⟨rfl,rfl⟩
  · omega
  · omega

/-- No branch of the handler takes a term. -/
theorem appendResponse_follows (response : AppendEntriesResponse) (isHeartbeat : Bool) :
    FollowsTerm (.appendResponse response isHeartbeat) response.term n
        (n.onAppendEntriesReponse response isHeartbeat) ↔
      n.heedsTerm (.appendResponse response isHeartbeat) := by
  have hterm : (n.onAppendEntriesReponse response isHeartbeat).raft.currentTerm =
      n.raft.currentTerm := by
    obtain ⟨m,hm,⟨_,_,_,hr⟩,-⟩ := onAppendEntriesReponse_frame response isHeartbeat n
    rw [hr,hm]
    split_ifs <;> rfl
  constructor
  · intro h
    by_contra hle
    have := (h.newer (by simpa [heedsTerm] using hle)).1
    rw [hterm] at this
    simp only [heedsTerm] at hle
    omega
  · intro h
    have hle : response.term ≤ n.raft.currentTerm := h
    exact ⟨fun hlt => by omega,fun h => absurd h Bool.false_ne_true⟩

/-- A running node handles a message by the rule of newer terms exactly when the message is
one that its handlers heed. -/
theorem newer_term_iff {addrStr : CString} {peerAddrs : List CString}
    {channel : Option (List CString)} {m : Node} {e : NodeEvent} {t : Nat}
    (hrun : n.raft.running = true) (he : e.messageTerm = some t)
    (hm : n.take addrStr peerAddrs channel e = some m) :
    FollowsTerm e t n m ↔ n.heedsTerm e := by
  cases e with
  | voteRequest request =>
    obtain ⟨-,⟨⟩⟩ := Option.ite_none_right_eq_some.mp hm
    obtain rfl := Option.some.inj he
    exact voteRequest_follows hrun request
  | voteResponse response =>
    obtain ⟨-,⟨⟩⟩ := Option.ite_none_right_eq_some.mp hm
    obtain rfl := Option.some.inj he
    exact ⟨fun _ => trivial,fun _ => voteResponse_follows response⟩
  | appendRequest request r =>
    obtain ⟨-,⟨⟩⟩ := Option.ite_none_right_eq_some.mp hm
    obtain rfl := Option.some.inj he
    exact appendRequest_follows hrun request r
  | appendResponse response isHeartbeat =>
    obtain ⟨-,⟨⟩⟩ := Option.ite_none_right_eq_some.mp hm
    obtain rfl := Option.some.inj he
    exact appendResponse_follows response isHeartbeat
  | run r => exact absurd he (by simp [NodeEvent.messageTerm])
  | timer r => exact absurd he (by simp [NodeEvent.messageTerm])
  | doLog cmd => exact absurd he (by simp [NodeEvent.messageTerm])
  | crash => exact absurd he (by simp [NodeEvent.messageTerm])

/-- A heartbeat of a newer term takes a leader back. -/
theorem newer_term_heartbeat : ∃ n m : Node, n.raft.state = .leader ∧
    n.raft.currentTerm < 7 ∧
    n.take ['a'] [['b']] none (.appendRequest ⟨['b'],7,-1,2^64-1,-1,[],0⟩ (.now 451)) = some m ∧
    (FollowsTerm (.appendRequest ⟨['b'],7,-1,2^64-1,-1,[],0⟩ (.now 451)) 7 n m ↔
      n.heedsTerm (.appendRequest ⟨['b'],7,-1,2^64-1,-1,[],0⟩ (.now 451))) := by
  obtain ⟨l,-,hl⟩ := (lifetimes ['a'] [['b']] none).exec_any Machine.always
    ⟨Node.create ['a'] [['b']] none none,[]⟩
    [.run (.now 0),.timer (.now 451),.voteResponse ⟨['b'],0,true,0,true⟩]
    (fun l => l.node.raft.running = true ∧ l.node.raft.state = .leader ∧
      l.node.raft.currentTerm < 7 ∧ l.node.stopped = false) (by decide +kernel)
  obtain ⟨hrun,hs,ht,hstop⟩ := of_decide_eq_true hl
  have hm : l.node.take ['a'] [['b']] none
      (.appendRequest ⟨['b'],7,-1,2^64-1,-1,[],0⟩ (.now 451)) = some _ := if_pos hstop
  exact ⟨l.node,_,hs,ht,hm,newer_term_iff hrun rfl hm⟩

/-- Entries of a newer term reach a leader: it takes them, and stays the leader of the old
term. -/
theorem newer_term_entries : ∃ l l' : Lifetime,
    (lifetimes ['a'] [['b']] none).Path Machine.always
      ⟨Node.create ['a'] [['b']] none none,[]⟩ l ∧ l.node.raft.running = true ∧
    (lifetimes ['a'] [['b']] none).step l
      (.appendRequest ⟨['b'],2,-1,0,-1,[⟨0,2,0,['x'],true⟩],0⟩ (.now 451)) = some l' ∧
    l.node.raft.currentTerm < 2 ∧ l'.node.raft.logs.length = 1 ∧
    l'.node.raft.currentTerm = l.node.raft.currentTerm ∧ l'.node.raft.state = .leader ∧
    ¬FollowsTerm (.appendRequest ⟨['b'],2,-1,0,-1,[⟨0,2,0,['x'],true⟩],0⟩ (.now 451)) 2
      l.node l'.node := by
  obtain ⟨l,hp,hl⟩ := (lifetimes ['a'] [['b']] none).exec_any Machine.always
    ⟨Node.create ['a'] [['b']] none none,[]⟩
    [.run (.now 0),.timer (.now 451),.voteResponse ⟨['b'],0,true,0,true⟩]
    (fun l => l.node.raft.running = true && l.node.raft.currentTerm < 2 &&
      ((lifetimes ['a'] [['b']] none).step l
        (.appendRequest ⟨['b'],2,-1,0,-1,[⟨0,2,0,['x'],true⟩],0⟩ (.now 451))).any (fun l' =>
          l'.node.raft.logs.length = 1 && l'.node.raft.currentTerm = l.node.raft.currentTerm &&
            l'.node.raft.state = .leader)) (by decide +kernel)
  simp only [Bool.and_eq_true,Option.any_eq_true,decide_eq_true_eq] at hl
  obtain ⟨⟨hrun,hlt⟩,l',hstep,⟨hlen,hterm⟩,hs⟩ := hl
  refine ⟨l,l',hp,hrun,hstep,hlt,hlen,hterm,hs,fun h => ?_⟩
  have := (h.newer hlt).1
  omega

end Node
end SRaftMuduo
