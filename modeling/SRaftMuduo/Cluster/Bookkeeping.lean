import SRaftMuduo.Cluster.Commitment
import SRaftMuduo.Cluster.Failures

namespace SRaftMuduo

namespace SRaft

variable {s : SRaft} {name p : CString} {peer peer' : SRaftPeer}

theorem findPeer_touchPeer (h : s.findPeer p = some peer) :
    (s.touchPeer name).findPeer p = some peer := by
  unfold touchPeer
  split_ifs
  · exact h
  · obtain ⟨x,hx,hp⟩ := Option.bind_eq_some_iff.mp h
    simp only [findPeer,List.find?_append,hx,Option.some_or]
    exact hp

theorem findPeer_setPeer (h : s.findPeer name = some peer) :
    (s.setPeer name peer').findPeer name = some peer' := by
  obtain ⟨⟨x,q⟩,hx,-⟩ := Option.bind_eq_some_iff.mp h
  have hname : x = name := by simpa using List.find?_some hx
  have hkey : ((fun pp : CString × Option SRaftPeer => decide (pp.1 = name)) ∘ fun pp =>
      if pp.1 = name then (name,some peer') else pp) = fun pp => decide (pp.1 = name) := by
    funext pp
    by_cases hpp : pp.1 = name <;> simp [hpp]
  simp only [findPeer,setPeer,List.find?_map,hkey,hx,Option.map_some,hname,if_true,
    Option.bind_some]

theorem findPeer_setPeer_ne (h : p ≠ name) :
    (s.setPeer name peer').findPeer p = s.findPeer p := by
  have hkey : ((fun pp : CString × Option SRaftPeer => decide (pp.1 = p)) ∘ fun pp =>
      if pp.1 = name then (name,some peer') else pp) = fun pp => decide (pp.1 = p) := by
    funext pp
    by_cases hpp : pp.1 = name
    · simp [hpp,h.symm]
    · simp [hpp]
  simp only [findPeer,setPeer,List.find?_map,hkey]
  cases hf : s.peers.find? (fun pp => decide (pp.1 = p)) with
  | none => rfl
  | some pp =>
    have hpp : pp.1 = p := by simpa using List.find?_some hf
    simp [hpp,h]

end SRaft

/-- An answer of a peer to entries: its `success`, its last index, and the term of the
request it answers. -/
structure Answer where
  success : Bool
  index : Int
  term : Nat
  deriving DecidableEq

/-- It accepts a request of the period of the term `t`. -/
def Answer.counts (t : Nat) (a : Answer) : Bool := a.success && a.term = t

/-- The greatest index in the answers that accept a request of the period. -/
def Answer.matched (t : Nat) (answers : List Answer) : Int :=
  ((answers.filter (counts t)).map index).foldl max (-1)

theorem Answer.matched_snoc (t : Nat) (answers : List Answer) (a : Answer) :
    matched t (answers++[a]) =
      if a.counts t then max (matched t answers) a.index else matched t answers := by
  unfold matched
  by_cases h : a.counts t = true <;> simp [List.filter_append,h]

theorem Answer.matched_mono (t : Nat) (answers more : List Answer) :
    matched t answers ≤ matched t (answers++more) := by
  induction more using List.reverseRecOn with
  | nil => simp
  | append_singleton more a ih =>
    rw [← List.append_assoc,matched_snoc]
    split_ifs
    · exact ih.trans (le_max_left _ _)
    · exact ih

/-- What `peers_` says of the peer `p` after the answers it has given in the period. -/
def Booked (t : Nat) (p : CString) (answers : List Answer) (s : SRaft) : Prop :=
  ∃ peer, s.findPeer p = some peer ∧ peer.matchIndex = Answer.matched t answers ∧
    ∀ a, answers.getLast? = some a → a.counts t = true → peer.nextIndex = peer.matchIndex+1

namespace Node

/-- An index that is already committed is not booked, a lower one than the last is booked over
it, and that of a request of another period is booked too. -/
def misbooked (request : AppendEntriesRequest) (index : Int) (n : Node) (peer : SRaftPeer) :
    Prop :=
  if request.term = n.raft.currentTerm then
    if index ≤ n.raft.commitIndex then
      ¬(index ≤ peer.matchIndex ∧ peer.nextIndex = peer.matchIndex+1)
    else index < peer.matchIndex
  else n.raft.commitIndex < index ∧ index ≠ peer.matchIndex

instance (request : AppendEntriesRequest) (index : Int) (n : Node) (peer : SRaftPeer) :
    Decidable (n.misbooked request index peer) := by
  unfold misbooked
  infer_instance

def misbooks (request : AppendEntriesRequest) (response : AppendEntriesResponse) (n : Node) :
    Prop :=
  response.success = true ∧ response.term ≤ n.raft.currentTerm ∧
    ∃ peer ∈ n.raft.findPeer response.name, n.misbooked request response.lastLogIndex peer

instance (request : AppendEntriesRequest) (response : AppendEntriesResponse) (n : Node) :
    Decidable (n.misbooks request response) :=
  inferInstanceAs (Decidable (_ ∧ _ ∧ _))

variable {n : Node} {t : Nat} {p : CString} {answers : List Answer} {peer : SRaftPeer}
  {request : AppendEntriesRequest} {response : AppendEntriesResponse}

/-- On a leader that knows the peer, an answer of no later term is counted at once. -/
theorem onAppendEntriesReponse_counted (hl : n.raft.state = .leader)
    (ht : response.term ≤ n.raft.currentTerm)
    (hf : n.raft.findPeer response.name = some peer) :
    n.onAppendEntriesReponse response false = n.countResponse response := by
  have htouch : n.touchPeer response.name = n := by
    have hin := List.mem_map_of_mem (f := Prod.fst) (SRaft.findPeer_mem hf)
    rw [touchPeer,SRaft.touchPeer,if_pos hin]
  have hcheck : n.checkTerm response.term = n := if_neg (by omega)
  unfold onAppendEntriesReponse
  dsimp only
  rw [htouch,hcheck,if_neg (not_not.mpr hl),if_neg Bool.false_ne_true]

theorem countCommit_findPeer (hf : n.raft.findPeer response.name = some peer) :
    (n.countCommit peer response).raft.findPeer response.name =
      if response.lastLogIndex ≤ n.raft.commitIndex then some peer
      else some ⟨peer.name,response.lastLogIndex+1,response.lastLogIndex⟩ := by
  have hset : (n.setPeer response.name
      ⟨peer.name,response.lastLogIndex+1,response.lastLogIndex⟩).raft.findPeer response.name =
      some ⟨peer.name,response.lastLogIndex+1,response.lastLogIndex⟩ := SRaft.findPeer_setPeer hf
  unfold countCommit
  dsimp only
  split_ifs
  · exact hf
  · exact hset
  · rw [doApply_raft]
    exact hset
  · exact hset

/-- The answer `a` as the handler gets it. -/
def answer (request : AppendEntriesRequest) (response : AppendEntriesResponse) : Answer :=
  ⟨response.success,response.lastLogIndex,request.term⟩

/-- A success is booked as it should be exactly when it is not one of those. -/
theorem booked_success_iff (hl : n.raft.state = .leader) (hcur : n.raft.currentTerm = t)
    (h : Booked t response.name answers n.raft) (hs : response.success = true)
    (ht : response.term ≤ n.raft.currentTerm) :
    Booked t response.name (answers++[answer request response])
        (n.onAppendEntriesReponse response false).raft ↔
      ¬n.misbooks request response := by
  obtain ⟨peer,hf,hmatch,-⟩ := h
  have hcount : n.countResponse response = n.countCommit peer response := by
    unfold countResponse
    rw [hf]
    dsimp only
    rw [if_neg (by rw [hs]; decide)]
  have hbook := countCommit_findPeer (n := n) hf
  rw [onAppendEntriesReponse_counted hl ht hf,hcount,Booked,hbook,Answer.matched_snoc]
  have hcounts : (answer request response).counts t = true ↔ request.term = t := by
    simp [answer,Answer.counts,hs]
  have hindex : (answer request response).index = response.lastLogIndex := rfl
  have hmis : n.misbooks request response ↔ n.misbooked request response.lastLogIndex peer := by
    simp [misbooks,hs,ht,hf]
  simp only [List.getLast?_concat,Option.some.injEq,forall_eq',hcounts,hindex,hmis,misbooked,
    hcur]
  by_cases hterm : request.term = t
  · by_cases hle : response.lastLogIndex ≤ n.raft.commitIndex
    · -- the peer stays as it is
      simp only [hterm,hle,if_true,Option.some.injEq,exists_eq_left',forall_const,hmatch]
      omega
    · simp only [hterm,hle,if_true,if_false,Option.some.injEq,exists_eq_left',forall_const,
        hmatch,and_true]
      omega
  · by_cases hle : response.lastLogIndex ≤ n.raft.commitIndex
    · simp only [hterm,hle,if_true,if_false,Option.some.injEq,exists_eq_left',hmatch,
        false_implies,and_true,true_iff]
      omega
    · simp only [hterm,hle,if_false,Option.some.injEq,exists_eq_left',hmatch,false_implies,
        and_true]
      omega

/-- A refusal sets the next index only. -/
theorem booked_refusal (hl : n.raft.state = .leader) (h : Booked t response.name answers n.raft)
    (hs : response.success = false) (ht : response.term ≤ n.raft.currentTerm) :
    Booked t response.name (answers++[answer request response])
      (n.onAppendEntriesReponse response false).raft := by
  obtain ⟨peer,hf,hmatch,-⟩ := h
  have hcounts : (answer request response).counts t = false := by
    simp [answer,Answer.counts,hs]
  have hset : n.countResponse response =
      n.setPeer response.name ⟨peer.name,response.lastLogIndex+1,peer.matchIndex⟩ := by
    unfold countResponse
    rw [hf]
    exact if_pos hs
  rw [onAppendEntriesReponse_counted hl ht hf,hset]
  refine ⟨_,SRaft.findPeer_setPeer hf,?_,?_⟩
  · rw [Answer.matched_snoc,if_neg (by rw [hcounts]; exact Bool.false_ne_true)]
    exact hmatch
  · intro a ha hcount
    obtain rfl : answer request response = a := by simpa using ha
    exact absurd (hcounts.symm.trans hcount) Bool.false_ne_true

/-- The answer of another peer, or to a heartbeat, leaves what the node knows of this one. -/
theorem onAppendEntriesReponse_findPeer {isHeartbeat : Bool} (hf : n.raft.findPeer p = some peer)
    (h : isHeartbeat = true ∨ response.name ≠ p) :
    (n.onAppendEntriesReponse response isHeartbeat).raft.findPeer p = some peer := by
  have htouch : (n.touchPeer response.name).raft.findPeer p = some peer :=
    SRaft.findPeer_touchPeer hf
  have hcheck : ((n.touchPeer response.name).checkTerm response.term).raft.findPeer p =
      some peer := by
    rw [SRaft.findPeer,(checkTerm_counting _ _).1]
    exact htouch
  rcases onAppendEntriesReponse_cases response isHeartbeat n with
    ⟨-,he⟩ | ⟨-,he | ⟨hno,he⟩⟩ <;> rw [he]
  · exact htouch
  · exact hcheck
  have hne : response.name ≠ p := by
    rcases h with h | h
    · exact absurd (hno.symm.trans h) Bool.false_ne_true
    · exact h
  generalize (n.touchPeer response.name).checkTerm response.term = x at hcheck
  rcases countResponse_cases response x with he | he | ⟨peer',mi,-,m,hm,he⟩
  · rwa [he]
  · rw [he]
    exact hcheck
  · have hset : m.raft.findPeer p = some peer := by
      rw [hm]
      exact (SRaft.findPeer_setPeer_ne hne.symm).trans hcheck
    rcases he with he | he | ⟨-,-,-,-,he⟩ <;> rw [he]
    · exact hset
    · exact hset
    · rw [doApply_raft]
      exact hset

end Node

namespace Cluster

variable {cfg : Config} {c c' c₀ : Cluster} {l p : CString} {t : Nat}

/-- The node at `l` is the leader of the term `t`. -/
def leadsIn (l : CString) (t : Nat) (c : Cluster) : Prop :=
  (c.raft l).state = .leader ∧ (c.raft l).currentTerm = t

instance (l : CString) (t : Nat) (c : Cluster) : Decidable (c.leadsIn l t) :=
  inferInstanceAs (Decidable (_ ∧ _))

/-- The answers of `p` to entries that a step processes at `l`. -/
def answersAt (l p : CString) (c : Cluster) : Event → List Answer
  | .respond k =>
    match c.net[k]? with
    | some (.appendReply src _ _ request isHeartbeat response) =>
      if src = l ∧ isHeartbeat = false ∧ response.name = p then [Node.answer request response]
      else []
    | _ => []
  | _ => []

/-- A step at `l` that books a success of `p` wrongly. -/
def bookSlip (l p : CString) (c : Cluster) : Event → Bool
  | .respond k =>
    match c.net[k]? with
    | some (.appendReply src _ _ request isHeartbeat response) =>
      src = l ∧ isHeartbeat = false ∧ response.name = p ∧
        (c.servers l).node.misbooks request response
    | _ => false
  | _ => false

/-- The steps of a period in which `l` is the leader of `t`, with no such step. -/
def booksIn (l p : CString) (t : Nat) (q : Cluster × List Answer) (e : Event) : Prop :=
  q.1.leadsIn l t ∧ q.1.bookSlip l p e = false

instance (l p : CString) (t : Nat) (q : Cluster × List Answer) (e : Event) :
    Decidable (booksIn l p t q e) :=
  inferInstanceAs (Decidable (_ ∧ _))

theorem answersAt_other {e : Event} {i : CString} {n : Node} {net : List Rpc} (hi : i ≠ l)
    (hm : c.Move i e n net) : c.answersAt l p e = [] := by
  cases hm with
  | appendReply k dst request isHeartbeat response hk =>
    rw [answersAt,hk]
    exact if_neg (fun h => hi h.1)
  | voteReply k dst request response hk => rw [answersAt,hk]
  | _ => rfl

/-- What a handler of the leader does to the entry of `p` in `peers_`. -/
theorem booked_move {e : Event} {n : Node} {net : List Rpc} {answers : List Answer}
    (hl : c.leadsIn l t) (hok : c.bookSlip l p e = false) (h : Booked t p answers (c.raft l))
    (hm : c.Move l e n net) (hn : n.raft.state = .leader) :
    Booked t p (answers++c.answersAt l p e) n.raft := by
  have hsame : c.answersAt l p e = [] → n.raft.findPeer p = (c.raft l).findPeer p →
      Booked t p (answers++c.answersAt l p e) n.raft := by
    intro hnone hf
    rw [hnone,List.append_nil,Booked,hf]
    exact h
  have hpeers : c.answersAt l p e = [] → n.raft.peers = (c.raft l).peers →
      Booked t p (answers++c.answersAt l p e) n.raft := by
    intro hnone hp
    exact hsame hnone (by rw [SRaft.findPeer,hp,SRaft.findPeer])
  cases hm with
  | run r _ => exact hpeers rfl (Node.run_peers r _)
  | timer r => exact hpeers rfl (Node.onTimer_peers r _)
  | doLog cmd => exact hpeers rfl (Node.doLog_peers cmd _)
  | putLog request _ => exact hpeers rfl (Node.doLog_peers _ _)
  | voteCall k r src life request response _ _ =>
    exact hpeers rfl (Node.onRequestVoteRequest_peers request _)
  | appendCall k r src life request isHeartbeat _ _ =>
    exact hpeers rfl (Node.onAppendEntriesRequest_peers request r _)
  | voteReply k dst request response hk =>
    exact hpeers (by rw [answersAt,hk]) (Node.onRequestVoteResponse_peers response _)
  | appendReply k dst request isHeartbeat response hk =>
    -- the leader did not step back, so the answer was of no later term
    have ht : response.term ≤ (c.servers l).node.raft.currentTerm := by
      by_contra hlt
      obtain ⟨m,hm,⟨_,_,_,hr⟩,-⟩ :=
        Node.onAppendEntriesReponse_frame response isHeartbeat (c.servers l).node
      rw [if_pos ⟨hl.1,not_le.mp hlt⟩] at hm
      rw [hr,hm] at hn
      exact absurd hn (by simp [Node.stepDown])
    have hnotes : c.answersAt l p (.respond k) = if isHeartbeat = false ∧ response.name = p
        then [Node.answer request response] else [] := by
      simp [answersAt,hk]
    by_cases hcount : isHeartbeat = false ∧ response.name = p
    · obtain ⟨rfl,rfl⟩ := hcount
      rw [hnotes,if_pos ⟨rfl,rfl⟩]
      cases hs : response.success with
      | false => exact Node.booked_refusal hl.1 h hs ht
      | true =>
        rw [bookSlip,hk] at hok
        have hno : ¬(c.servers l).node.misbooks request response := by
          intro hmis
          exact of_decide_eq_false hok ⟨rfl,rfl,rfl,hmis⟩
        exact (Node.booked_success_iff hl.1 hl.2 h hs ht).mpr hno
    · rw [hnotes,if_neg hcount,List.append_nil]
      obtain ⟨peer,hf,hbook⟩ := h
      refine ⟨peer,Node.onAppendEntriesReponse_findPeer hf ?_,hbook⟩
      by_cases hh : isHeartbeat = true
      · exact .inl hh
      · exact .inr (fun hname => hcount ⟨by simpa using hh,hname⟩)

theorem booked_step {q q' : Cluster × List Answer} {e : Event}
    (h : q.1.leadsIn l t → Booked t p q.2 (q.1.raft l)) (hok : booksIn l p t q e)
    (hs : ((machine cfg).record (answersAt l p)).step q e = some q') :
    q'.1.leadsIn l t → Booked t p q'.2 (q'.1.raft l) := by
  obtain ⟨hlead,hslip⟩ := hok
  obtain ⟨ht,hq⟩ := Machine.record_step hs
  intro hlead'
  have hbook := h hlead
  rw [hq]
  have hsame : q'.1.raft l = q.1.raft l → q.1.answersAt l p e = [] →
      Booked t p (q.2++q.1.answersAt l p e) (q'.1.raft l) := by
    intro hr hnone
    rw [hr,hnone,List.append_nil]
    exact hbook
  rcases step_cases ht with
    ⟨i,n,net,-,hm,hmoved⟩ | ⟨k,rpc,rfl,-,hc⟩ | ⟨i,-,rfl,hc⟩ | ⟨hout,hq'⟩
  · by_cases hi : i = l
    · subst hi
      have hn : q'.1.raft i = n.raft := by rw [raft,hmoved.node]
      rw [hn]
      exact booked_move hlead hslip hbook hm (hn ▸ hlead'.1)
    · refine hsame ?_ (answersAt_other hi hm)
      rw [raft,hmoved.other l (fun he => hi he.symm)]
      rfl
  · refine hsame ?_ rfl
    rw [hc]
    rfl
  · by_cases hi : l = i
    · -- a new process is no leader
      rw [hc] at hlead'
      simp [leadsIn,crashed,raft,hi,Server.boot,Node.create,SRaft.create] at hlead'
    · refine hsame ?_ rfl
      rw [hc]
      simp [crashed,raft,hi]
  · refine hsame ?_ ?_
    · obtain ⟨hr,-⟩ := hq'.node l
      rw [raft,hr]
      rfl
    · cases e <;> first | rfl | exact absurd hout Bool.false_ne_true

/-- While a node leads one term, from a peer without a match index on: after every run in
which no success of the peer is booked wrongly, the match index is the greatest index that
the peer has confirmed in the period and, after a success, the next index follows it; and
no further such step lowers the match index. -/
theorem bookkeeping_in_period {answers : List Answer}
    (hstart : ∃ peer, (c₀.raft l).findPeer p = some peer ∧ peer.matchIndex = -1)
    (h : ((machine cfg).record (answersAt l p)).Path (booksIn l p t) (c₀,[]) (c,answers))
    (hl : c.leadsIn l t) :
    Booked t p answers (c.raft l) ∧
    ∀ e q', booksIn l p t (c,answers) e →
      ((machine cfg).record (answersAt l p)).step (c,answers) e = some q' → q'.1.leadsIn l t →
      ∀ peer peer', (c.raft l).findPeer p = some peer →
        (q'.1.raft l).findPeer p = some peer' → peer.matchIndex ≤ peer'.matchIndex := by
  have hinit : Booked t p [] (c₀.raft l) := by
    obtain ⟨peer,hf,hmatch⟩ := hstart
    exact ⟨peer,hf,hmatch,fun a ha => absurd ha (by simp)⟩
  have hbook : Booked t p answers (c.raft l) :=
    h.invariant (I := fun q => q.1.leadsIn l t → Booked t p q.2 (q.1.raft l))
      (fun _ _ _ hi hok hs => booked_step hi hok hs) (fun _ => hinit) hl
  refine ⟨hbook,?_⟩
  intro e q' hok hs hl' peer peer' hf hf'
  obtain ⟨y,hy,hmatch',-⟩ := booked_step (fun _ => hbook) hok hs hl'
  obtain ⟨x,hx,hmatch,-⟩ := hbook
  obtain rfl := Option.some.inj (hf.symm.trans hx)
  obtain rfl := Option.some.inj (hf'.symm.trans hy)
  rw [hmatch,hmatch',(Machine.record_step hs).2]
  exact Answer.matched_mono t _ _

/-- Up to the election of the first node of three. -/
def electingFirst : List Event :=
  [.run ['a'] (.now 0),.run ['b'] (.now 0),.run ['c'] (.now 0),.timer ['a'] (.now 451),
    .deliver 0 (.now 451),.deliver 1 (.now 451),.respond 0]

/-- Its first entry, and the answers of both peers. -/
def answeringBoth : List Event :=
  [.doLog ['a'] ['x'],.deliver 1 (.now 451),.deliver 2 (.now 451),.respond 1,.respond 1]

/-- The answer of the one that comes first is booked. -/
theorem bookkeeping_in_period_first : ∃ (c : Cluster) (answers : List Answer),
    answers.length = 1 ∧ Booked 1 ['b'] answers (c.raft ['a']) ∧
    ∀ e q', booksIn ['a'] ['b'] 1 (c,answers) e →
      ((machine .three).record (answersAt ['a'] ['b'])).step (c,answers) e = some q' →
      q'.1.leadsIn ['a'] 1 →
      ∀ peer peer', (c.raft ['a']).findPeer ['b'] = some peer →
        (q'.1.raft ['a']).findPeer ['b'] = some peer' → peer.matchIndex ≤ peer'.matchIndex := by
  obtain ⟨c₀,-,h₀⟩ := Machine.exec_any (machine .three) Machine.always (.initial .three)
    electingFirst
    (fun c => (c.raft ['a']).findPeer ['b'] = some ⟨['b'],0,-1⟩ ∧
      (((machine .three).record (answersAt ['a'] ['b'])).exec (booksIn ['a'] ['b'] 1) (c,[])
        answeringBoth).any
        (fun q => q.1.leadsIn ['a'] 1 ∧ q.2.length = 1) = true)
    (by decide +kernel)
  obtain ⟨hf,hrun⟩ := of_decide_eq_true h₀
  obtain ⟨⟨c,answers⟩,hp,hq⟩ := Machine.exec_any _ _ _ _ _ hrun
  obtain ⟨hl,hlen⟩ := of_decide_eq_true hq
  exact ⟨c,answers,hlen,bookkeeping_in_period ⟨_,hf,rfl⟩ hp hl⟩

/-- The answer of the other finds the index committed, and is not booked. -/
theorem second_answer_lost : ∃ (c₀ c : Cluster) (answers : List Answer),
    (machine .three).Path Machine.always (.initial .three) c₀ ∧
    (c₀.raft ['a']).findPeer ['c'] = some ⟨['c'],0,-1⟩ ∧
    ((machine .three).record (answersAt ['a'] ['c'])).Path (fun q _ => q.1.leadsIn ['a'] 1)
      (c₀,[]) (c,answers) ∧
    c.leadsIn ['a'] 1 ∧ answers = [⟨true,0,1⟩] ∧ ¬Booked 1 ['c'] answers (c.raft ['a']) := by
  obtain ⟨c₀,hp₀,h₀⟩ := Machine.exec_any (machine .three) Machine.always (.initial .three)
    electingFirst
    (fun c => (c.raft ['a']).findPeer ['c'] = some ⟨['c'],0,-1⟩ ∧
      (((machine .three).record (answersAt ['a'] ['c'])).exec (fun q _ => q.1.leadsIn ['a'] 1)
        (c,[]) answeringBoth).any
        (fun q => q.1.leadsIn ['a'] 1 ∧ q.2 = [⟨true,0,1⟩] ∧
          (q.1.raft ['a']).findPeer ['c'] = some ⟨['c'],0,-1⟩) = true)
    (by decide +kernel)
  obtain ⟨hf,hrun⟩ := of_decide_eq_true h₀
  obtain ⟨⟨c,answers⟩,hp,hq⟩ := Machine.exec_any _ _ _ _ _ hrun
  obtain ⟨hl,hans,hf'⟩ := of_decide_eq_true hq
  have hans : answers = [⟨true,0,1⟩] := hans
  refine ⟨c₀,c,answers,hp₀,hf,hp,hl,hans,?_⟩
  rintro ⟨peer,hpeer,hmatch,-⟩
  obtain rfl := Option.some.inj (hf'.symm.trans hpeer)
  rw [hans] at hmatch
  exact absurd hmatch (by decide)

end Cluster
end SRaftMuduo
