import SRaftMuduo.Cluster.Pipeline
import SRaftMuduo.Store.Encoding
import Mathlib.Data.List.Sort
import Mathlib.Data.List.Perm.Basic

namespace SRaftMuduo

/-- An ordered list ends with those of its elements that all the others are below. -/
theorem eq_append_of_below {α : Type*} [DecidableEq α] {r : α → α → Prop} [Std.Antisymm r]
    [Std.Irrefl r] {xs ys : List α} (hx : xs.Pairwise r) (hy : ys.Pairwise r) (hsub : ys ⊆ xs)
    (hlow : ∀ x ∈ xs, x ∈ ys ∨ ∀ y ∈ ys, r x y) : ∃ low, xs = low++ys := by
  refine ⟨xs.filter (· ∉ ys),List.Subset.antisymm_of_pairwise hx ?_ ?_ ?_⟩
  · refine List.pairwise_append.mpr ⟨hx.filter _,hy,?_⟩
    intro x hm y hmy
    obtain ⟨hin,hout⟩ := List.mem_filter.mp hm
    exact (hlow x hin).resolve_left (by simpa using hout) y hmy
  · intro x hm
    by_cases hin : x ∈ ys
    · exact List.mem_append_right _ hin
    · exact List.mem_append_left _ (List.mem_filter.mpr ⟨hm,by simpa using hin⟩)
  · intro x hm
    rcases List.mem_append.mp hm with hm | hm
    · exact (List.mem_filter.mp hm).1
    · exact hsub hm

/-- The value of the last of the requests on a key. -/
def lastValue (key : CString) (requests : List PutAppendRequest) : Option CString :=
  ((requests.filter (fun request => request.key = key)).getLast?).map PutAppendRequest.value

theorem lastValue_ne_none {key : CString} {requests : List PutAppendRequest}
    (h : key ∈ requests.map PutAppendRequest.key) : lastValue key requests ≠ none := by
  obtain ⟨request,hm,hk⟩ := List.mem_map.mp h
  have hne : requests.filter (fun request => request.key = key) ≠ [] :=
    List.ne_nil_of_mem (List.mem_filter.mpr ⟨hm,by simpa using hk⟩)
  simpa [lastValue] using hne

/-- A request of `Skvclient::Put` that the parser reads back. -/
def PutAppendRequest.Plain (request : PutAppendRequest) : Prop :=
  request.op = opPut ∧ Token request.key ∧ Token request.value

instance (request : PutAppendRequest) : Decidable request.Plain :=
  inferInstanceAs (Decidable (_ ∧ _))

theorem Store.executeAll_puts (db : Store) {requests : List PutAppendRequest}
    (h : ∀ request ∈ requests, request.Plain) (key : CString) :
    db.executeAll (requests.map PutAppendRequest.command) key =
      (lastValue key requests).or (db key) := by
  induction requests using List.reverseRecOn with
  | nil => rfl
  | append_singleton requests request ih =>
    obtain ⟨hop,hk,hv⟩ := h request (by simp)
    have hstep : ∀ db : Store, db.execute request.command =
        db.assign request.key request.value := by
      intro db
      rw [Store.execute,PutAppendRequest.command,hop,parse_command opPut_token hk hv]
      rfl
    have hrest := ih (fun r hr => h r (by simp [hr]))
    simp only [Store.executeAll,List.map_append,List.map_cons,List.map_nil,List.foldl_append,
      List.foldl_cons,List.foldl_nil] at hrest ⊢
    rw [hstep,Store.assign]
    by_cases he : key = request.key
    · subst he
      simp [lastValue]
    · have hne : ¬request.key = key := fun hk => he hk.symm
      rw [if_neg he,hrest]
      simp [lastValue,List.filter_append,hne]

theorem Store.executeAll_append (db : Store) (a b : List CString) :
    db.executeAll (a++b) = (db.executeAll a).executeAll b :=
  List.foldl_append

/-- A cluster with one `Skvclient`. `calls` are its `PutAppend` calls on their way, each on
its own thread, with the server they go to. `puts` and `arrived` observe the calls of `Put`
and the requests that have reached `putAppend`, in order. -/
structure Service where
  cluster : Cluster
  puts : List PutAppendRequest
  calls : List (CString × PutAppendRequest)
  arrived : List (CString × PutAppendRequest)

def Service.start (c : Cluster) : Service := ⟨c,[],[],[]⟩

/-- `arrive` brings the call at a position of `calls` to its server, and `log` is the rest
of a `putAppend` that found its node to be the leader. -/
inductive ServiceEvent
  | put (key value : CString)
  | arrive (k : Nat)
  | log (i : CString)
  | cluster (e : Event)

/-- The events that bring commands to `DoLog`. -/
def Event.writes : Event → Bool
  | .doLog .. => true
  | .putCheck .. => true
  | .putLog .. => true
  | _ => false

namespace Service

/-- `Skvclient::Put`: one call for each of `servers_`, and no wait for an answer. -/
def put (cfg : Config) (s : Service) (key value : CString) : Service :=
  let request : PutAppendRequest := ⟨key,value,opPut⟩
  {s with
    puts := s.puts++[request]
    calls := s.calls++cfg.names.map (fun i => (i,request))}

def onCluster (cfg : Config) (s : Service) (e : Event) : Option Service :=
  (Cluster.step cfg s.cluster e).map fun c => {s with cluster := c}

def arrive (cfg : Config) (s : Service) (k : Nat) (call : CString × PutAppendRequest) :
    Option Service :=
  onCluster cfg {s with calls := s.calls.eraseIdx k, arrived := s.arrived++[call]}
    (.putCheck call.1 call.2)

def step (cfg : Config) (s : Service) : ServiceEvent → Option Service
  | .put key value => some (s.put cfg key value)
  | .arrive k => s.calls[k]?.bind (s.arrive cfg k)
  | .log i => s.onCluster cfg (.putLog i)
  | .cluster e => if e.writes then none else s.onCluster cfg e

end Service

/-- The cluster and its client as a machine; no one else writes. -/
def service (cfg : Config) : Machine Service ServiceEvent :=
  ⟨fun s => s = .start (.initial cfg),Service.step cfg⟩

namespace Cluster

/-- The event ends the process at `l`, or brings it an `AppendEntries` of its own or a
later term. -/
def disturbs (c : Cluster) (l : CString) : Event → Bool
  | .crash i => i = l
  | .deliver k _ =>
    match c.net[k]? with
    | some (.appendCall _ dst _ request _) =>
      dst = l && (c.raft l).currentTerm ≤ request.term
    | _ => false
  | _ => false

def leads (c : Cluster) (l : CString) : Prop :=
  (c.raft l).running = true ∧ (c.raft l).state = .leader

instance (c : Cluster) (l : CString) : Decidable (c.leads l) :=
  inferInstanceAs (Decidable (_ ∧ _))

/-- The command of the `putAppend` at `l` that has found its node to be the leader. -/
def waiting (c : Cluster) (l : CString) : List CString :=
  ((c.servers l).pending.map PutAppendRequest.command).toList

/-- What an event gives to `DoLog` of the node at `l`. -/
def commandsAt (c : Cluster) (l : CString) : Event → List CString
  | .doLog i cmd => if i = l then [cmd] else []
  | .putLog i => if i = l then c.waiting i else []
  | _ => []

variable {cfg : Config} {c c' : Cluster} {l : CString}

/-- What a handler of a leader that nothing disturbs does to its log. -/
theorem leads_move {e : Event} {n : Node} {net : List Rpc} (hl : c.leads l)
    (hq : c.disturbs l e = false) (hm : c.Move l e n net) :
    ∃ new, n.raft.logs = (c.raft l).logs++new ∧
      (n.stopped = false → new.map LogEntry.data = c.commandsAt l e) := by
  obtain ⟨hrun,hstate⟩ := hl
  have hsame : n.raft.logs = (c.raft l).logs → c.commandsAt l e = [] →
      ∃ new, n.raft.logs = (c.raft l).logs++new ∧
        (n.stopped = false → new.map LogEntry.data = c.commandsAt l e) :=
    fun hlogs hcmd => ⟨[],by simp [hlogs],fun _ => by simp [hcmd]⟩
  have hlog : ∀ cmd, ∃ new, ((c.servers l).node.doLog cmd).1.raft.logs = (c.raft l).logs++new ∧
      (((c.servers l).node.doLog cmd).1.stopped = false → new.map LogEntry.data = [cmd]) := by
    intro cmd
    rcases Node.doLog_cases cmd (c.servers l).node with ⟨hno,-⟩ | ⟨-,he⟩ | ⟨-,-,-,he⟩
    · exact absurd ⟨hrun,hstate⟩ hno
    · rw [he]
      exact ⟨[],by simp [raft],fun hstop => absurd hstop (by simp)⟩
    · obtain ⟨ci,la,hr⟩ := Node.logEntry_raft cmd (c.servers l).node
      exact ⟨[Node.newEntry cmd (c.raft l)],by rw [he,hr]; rfl,fun _ => rfl⟩
  cases hm with
  | run r hno => exact absurd (hno.symm.trans hrun) (by decide)
  | timer r =>
    refine hsame ?_ rfl
    rcases Node.onTimer_cases r (c.servers l).node with
      ⟨-,he⟩ | ⟨-,-,due,he⟩ | ⟨-,hdue,-⟩ | ⟨-,hcand,-⟩
    · rw [he]
      rfl
    · obtain ⟨ci,la,hr⟩ := Node.doAppendEntries_raft true
        {(c.servers l).node with raft := {(c.servers l).node.raft with dueHeartBeat := due}}
      rw [he,hr]
      rfl
    · exact absurd (hstate.symm.trans hdue.1) (by decide)
    · exact absurd (hstate.symm.trans hcand) (by decide)
  | doLog cmd =>
    have hcmd : c.commandsAt l (.doLog l cmd) = [cmd] := if_pos rfl
    rw [hcmd]
    exact hlog cmd
  | putLog request hp =>
    have hcmd : c.commandsAt l (.putLog l) = [request.command] := by
      simp [commandsAt,waiting,hp]
    rw [hcmd]
    exact hlog request.command
  | voteCall k r src life request response hk _ =>
    refine hsame ?_ rfl
    rcases Node.onRequestVoteRequest_cases request (c.servers l).node with
      ⟨-,he,-⟩ | ⟨-,-,-,he⟩ | ⟨-,-,-,-,he⟩ <;> rw [he]
    all_goals rfl
  | appendCall k r src life request isHeartbeat hk _ =>
    refine hsame ?_ rfl
    have hlt : request.term < (c.raft l).currentTerm := by simpa [disturbs,hk] using hq
    rcases Node.onAppendEntriesRequest_cases request r (c.servers l).node with
      ⟨-,he⟩ | ⟨-,hle,-⟩ | ⟨-,hle,-⟩ | ⟨-,hle,-⟩
    · rw [he]
      rfl
    all_goals exact absurd hlt (Nat.not_lt.mpr hle)
  | voteReply k dst request response _ =>
    refine hsame ?_ rfl
    rcases Node.onRequestVoteResponse_cases response (c.servers l).node with
      ⟨-,he⟩ | ⟨-,-,he⟩ | ⟨-,-,-,he⟩ <;> rw [he]
    all_goals rfl
  | appendReply k dst request isHeartbeat response _ =>
    refine hsame ?_ rfl
    obtain ⟨m,hm,⟨peers,ci,la,hr⟩,-⟩ :=
      Node.onAppendEntriesReponse_frame response isHeartbeat (c.servers l).node
    rw [hr,hm]
    split_ifs <;> rfl

/-- What is pushed is found in the log, under its index. -/
theorem PipeInv.found (h : PipeInv cfg c) (hc : cfg.Symmetric) {i : CString} {e : Event}
    {n : Node} {net : List Rpc} (hlive : c.live cfg i) (hm : c.Move i e n net) :
    ∃ more, n.applied = (c.servers i).node.applied++more ∧
      ∀ p ∈ more, p.2 ≠ [] → ∃ x ∈ n.raft.logs, x.index = p.1 ∧ x.data = p.2 := by
  obtain ⟨more,happ,hbound⟩ := h.applies hc hm
  have htidy := ((tidy_invariant cfg).move c i e n net hlive (h.tidy.1 i) h.tidy.2 hm).1
  refine ⟨more,happ.applied,?_⟩
  intro p hp hne
  have hd := happ.data p hp
  obtain ⟨h0,h1⟩ := hbound p hp
  rcases SRaft.getLogByIndex_cases htidy.logs (toU64_lt p.1) with he | ⟨x,hx,hidx,he⟩
  · rw [he] at hd
    exact absurd hd hne
  · rw [toU64_of_nonneg (by omega) (by omega)] at hidx
    rw [he] at hd
    exact ⟨x,hx,by omega,hd.symm⟩

theorem commandsAt_other {e : Event} {i : CString} {n : Node} {net : List Rpc} (hi : i ≠ l)
    (hm : c.Move i e n net) : c.commandsAt l e = [] := by
  cases hm with
  | doLog cmd => exact if_neg hi
  | putLog request hp => exact if_neg hi
  | run => rfl
  | timer => rfl
  | voteCall => rfl
  | appendCall => rfl
  | voteReply => rfl
  | appendReply => rfl

/-- What one step does at a leader that nothing disturbs. -/
theorem leads_step (h : PipeInv cfg c) (hc : cfg.Symmetric) {e : Event} (hl : c.leads l)
    (hq : c.disturbs l e = false) (hs : (machine cfg).step c e = some c') :
    ∃ new more, (c'.raft l).logs = (c.raft l).logs++new ∧
      (c'.servers l).node.applied = (c.servers l).node.applied++more ∧
      (∀ p ∈ more, p.2 ≠ [] → ∃ x ∈ (c'.raft l).logs, x.index = p.1 ∧ x.data = p.2) ∧
      ((c'.servers l).node.stopped = false → (c.servers l).node.stopped = false ∧
        new.map LogEntry.data = c.commandsAt l e) := by
  have hsame : SameNode (c'.servers l).node (c.servers l).node → c.commandsAt l e = [] →
      ∃ new more, (c'.raft l).logs = (c.raft l).logs++new ∧
      (c'.servers l).node.applied = (c.servers l).node.applied++more ∧
      (∀ p ∈ more, p.2 ≠ [] → ∃ x ∈ (c'.raft l).logs, x.index = p.1 ∧ x.data = p.2) ∧
      ((c'.servers l).node.stopped = false → (c.servers l).node.stopped = false ∧
        new.map LogEntry.data = c.commandsAt l e) := by
    rintro ⟨hr,-,-,ha,-,hst⟩ hcmd
    refine ⟨[],[],by rw [raft,hr]; simp [raft],by simp [ha],by simp,?_⟩
    intro hstop
    exact ⟨by rw [← hst]; exact hstop,by simp [hcmd]⟩
  rcases step_cases hs with
    ⟨i,n,net,hlive,hmove,hmoved⟩ | ⟨k,rpc,rfl,-,rfl⟩ | ⟨i,-,rfl,rfl⟩ | ⟨hout,hq'⟩
  · by_cases hi : i = l
    · subst hi
      obtain ⟨new,hlogs,hdata⟩ := leads_move hl hq hmove
      obtain ⟨more,happ,hfound⟩ := h.found hc hlive hmove
      have hr : c'.raft i = n.raft := by rw [raft,hmoved.node]
      refine ⟨new,more,by rw [hr]; exact hlogs,by rw [hmoved.node]; exact happ,
        by rw [hr]; exact hfound,?_⟩
      rw [hmoved.node]
      exact fun hstop => ⟨hlive.2,hdata hstop⟩
    · refine hsame ?_ (commandsAt_other hi hmove)
      rw [hmoved.other l (fun he => hi he.symm)]
      exact .refl _
  · exact hsame (.refl _) rfl
  · have hi : l ≠ i := by
      rintro rfl
      simp [disturbs] at hq
    refine hsame ?_ rfl
    simpa [crashed,hi] using SameNode.refl _
  · refine hsame (hq'.node l) ?_
    cases e <;> first | rfl | exact absurd hout Bool.false_ne_true

theorem onNode_pending (i j : CString) (n : Node) (net : List Rpc) :
    ((c.onNode i n net).servers j).pending = (c.servers j).pending := by
  by_cases hj : j = i
  · subst hj
    simp [onNode,put]
  · simp [onNode,put,hj]

/-- Only `putAppend` and the end of the process touch its request. -/
theorem step_pending {e : Event} (hw : e.writes = false) (he : e ≠ .crash l)
    (hs : (machine cfg).step c e = some c') :
    (c'.servers l).pending = (c.servers l).pending := by
  cases e with
  | run i r =>
    obtain ⟨-,⟨⟩⟩ := Option.ite_none_right_eq_some.mp hs
    exact onNode_pending _ _ _ _
  | timer i r =>
    obtain ⟨-,⟨⟩⟩ := Option.ite_none_right_eq_some.mp hs
    exact onNode_pending _ _ _ _
  | doLog i cmd => exact absurd hw (by simp [Event.writes])
  | putCheck i request => exact absurd hw (by simp [Event.writes])
  | putLog i => exact absurd hw (by simp [Event.writes])
  | deliver k r =>
    obtain ⟨rpc,-,hd⟩ := Option.bind_eq_some_iff.mp hs
    cases rpc with
    | voteCall =>
      obtain ⟨-,⟨⟩⟩ := Option.ite_none_right_eq_some.mp hd
      exact onNode_pending _ _ _ _
    | appendCall =>
      obtain ⟨-,⟨⟩⟩ := Option.ite_none_right_eq_some.mp hd
      exact onNode_pending _ _ _ _
    | voteReply => exact absurd hd (by simp [deliverCall])
    | appendReply => exact absurd hd (by simp [deliverCall])
  | respond k =>
    obtain ⟨rpc,-,hd⟩ := Option.bind_eq_some_iff.mp hs
    cases rpc with
    | voteReply =>
      obtain ⟨-,⟨⟩⟩ := Option.ite_none_right_eq_some.mp hd
      exact onNode_pending _ _ _ _
    | appendReply =>
      obtain ⟨-,⟨⟩⟩ := Option.ite_none_right_eq_some.mp hd
      exact onNode_pending _ _ _ _
    | voteCall => exact absurd hd (by simp [respondCall])
    | appendCall => exact absurd hd (by simp [respondCall])
  | fail k =>
    obtain ⟨rpc,-,rfl⟩ := Option.map_eq_some_iff.mp hs
    rfl
  | crash i =>
    obtain ⟨-,⟨⟩⟩ := Option.ite_none_right_eq_some.mp hs
    have hi : l ≠ i := fun hi => he (hi ▸ rfl)
    simp [hi]
  | receive i =>
    obtain ⟨-,hr⟩ := Option.ite_none_right_eq_some.mp hs
    unfold receiveOne at hr
    split at hr
    · obtain rfl := Option.some.inj hr
      by_cases hi : l = i
      · subst hi
        simp
      · simp [hi]
    · exact absurd hr (by simp)

end Cluster

/-- The requests among the calls that go to one server. -/
def requestsTo (l : CString) (calls : List (CString × PutAppendRequest)) :
    List PutAppendRequest :=
  (calls.filter (fun call => call.1 = l)).map Prod.snd

theorem requestsTo_append (l : CString) (a b : List (CString × PutAppendRequest)) :
    requestsTo l (a++b) = requestsTo l a++requestsTo l b := by
  simp [requestsTo]

/-- Every server gets one call. -/
theorem requestsTo_put {l : CString} {names : List CString} (hn : names.Nodup)
    (hl : l ∈ names) (request : PutAppendRequest) :
    requestsTo l (names.map (fun i => (i,request))) = [request] := by
  have hone : names.filter (fun i => i = l) = [l] := by
    rw [List.filter_eq,List.count_eq_one_of_mem hn hl]
    rfl
  simp [requestsTo,List.filter_map,Function.comp_def,hone]

theorem requestsTo_erase {l : CString} {calls : List (CString × PutAppendRequest)} {k : Nat}
    {call : CString × PutAppendRequest} (hk : calls[k]? = some call) :
    (requestsTo l calls).Perm (requestsTo l [call]++requestsTo l (calls.eraseIdx k)) := by
  obtain ⟨hlt,rfl⟩ := List.getElem?_eq_some_iff.mp hk
  rw [← requestsTo_append]
  exact ((List.getElem_cons_eraseIdx_perm hlt).symm.filter _).map _

/-- The order of the pushes. -/
def Below (p q : Int × CString) : Prop := p.1 < q.1

instance : Std.Irrefl Below := ⟨fun p => Int.lt_irrefl p.1⟩

instance : Std.Antisymm Below := ⟨fun _ _ h h' => absurd h' (Int.lt_asymm h)⟩

theorem Piped.ordered {server : Server} (h : Piped server) :
    server.node.applied.Pairwise Below := by
  have hmap : (server.node.applied.map Prod.fst).Pairwise (fun a b => a < b) := by
    rw [h.lookups]
    exact List.pairwise_lt_range.map _ (fun a b hab => by omega)
  exact List.Pairwise.of_map Prod.fst (fun _ _ hab => hab) hmap

namespace Service

def disturbs (s : Service) (l : CString) : ServiceEvent → Bool
  | .cluster e => s.cluster.disturbs l e
  | _ => false

/-- The node at `l` is the leader, and stays the only one. -/
def stable (l : CString) (s : Service) (e : ServiceEvent) : Prop :=
  s.cluster.leads l ∧ s.disturbs l e = false

instance (l : CString) (s : Service) (e : ServiceEvent) : Decidable (s.stable l e) :=
  inferInstanceAs (Decidable (_ ∧ _))

/-- Since `c` the log of the leader at `l` has got the commands of the requests that have
arrived there, in that order, and what was pushed since is in the log. -/
structure Tracks (cfg : Config) (l : CString) (c : Cluster) (s : Service) : Prop where
  pipe : s.cluster.PipeInv cfg
  ops : ∀ request ∈ s.puts, request.op = opPut
  calls : s.puts.Perm (requestsTo l s.arrived++requestsTo l s.calls)
  logs : ∃ new more, (s.cluster.raft l).logs = (c.raft l).logs++new ∧
    (s.cluster.servers l).node.applied = (c.servers l).node.applied++more ∧
    (∀ p ∈ more, p.2 ≠ [] → ∃ x ∈ (s.cluster.raft l).logs, x.index = p.1 ∧ x.data = p.2) ∧
    ((s.cluster.servers l).node.stopped = false →
      new.map LogEntry.data++s.cluster.waiting l =
        (requestsTo l s.arrived).map PutAppendRequest.command)

variable {cfg : Config} {l : CString} {c : Cluster} {s s' : Service}

/-- A step of the cluster that takes a command to the log or a request to `putAppend`. -/
theorem Tracks.onCluster (h : Tracks cfg l c s) (hc : cfg.Symmetric) {e : Event}
    (hl : s.cluster.leads l) (hq : s.cluster.disturbs l e = false)
    (hs : (machine cfg).step s.cluster e = some s'.cluster)
    (hputs : s'.puts = s.puts)
    (hcalls : s.puts.Perm (requestsTo l s'.arrived++requestsTo l s'.calls))
    (hflow : ∃ more, s.cluster.commandsAt l e++s'.cluster.waiting l =
        s.cluster.waiting l++more.map PutAppendRequest.command ∧
      requestsTo l s'.arrived = requestsTo l s.arrived++more) : Tracks cfg l c s' := by
  obtain ⟨new,more,hlogs,happ,hfound,hdata⟩ := h.logs
  obtain ⟨new',more',hlogs',happ',hfound',hdata'⟩ := Cluster.leads_step h.pipe hc hl hq hs
  obtain ⟨got,hwait,harr⟩ := hflow
  refine ⟨h.pipe.step hc hs,hputs ▸ h.ops,hputs ▸ hcalls,new++new',more++more',?_,?_,?_,?_⟩
  · rw [hlogs',hlogs,List.append_assoc]
  · rw [happ',happ,List.append_assoc]
  · intro p hp hne
    rcases List.mem_append.mp hp with hp | hp
    · obtain ⟨x,hx,hxp⟩ := hfound p hp hne
      rw [hlogs']
      exact ⟨x,List.mem_append_left _ hx,hxp⟩
    · exact hfound' p hp hne
  · intro hstop
    obtain ⟨hstop,hnew⟩ := hdata' hstop
    rw [List.map_append,hnew,List.append_assoc,hwait,← List.append_assoc,hdata hstop,harr,
      List.map_append]

theorem Tracks.arrive (h : Tracks cfg l c s) (hc : cfg.Symmetric) {k : Nat}
    {call : CString × PutAppendRequest} (hl : s.cluster.leads l) (hk : s.calls[k]? = some call)
    (hs : s.arrive cfg k call = some s') : Tracks cfg l c s' := by
  obtain ⟨c',hstep,rfl⟩ := Option.map_eq_some_iff.mp hs
  have hcalls : s.puts.Perm (requestsTo l (s.arrived++[call])++
      requestsTo l (s.calls.eraseIdx k)) := by
    rw [requestsTo_append,List.append_assoc]
    exact h.calls.trans ((requestsTo_erase hk).append_left _)
  refine h.onCluster (e := .putCheck call.1 call.2) hc hl rfl hstep rfl hcalls
    ⟨requestsTo l [call],?_,requestsTo_append l _ _⟩
  obtain ⟨⟨-,hnone⟩,⟨⟩⟩ := Option.ite_none_right_eq_some.mp hstep
  have hnone : (s.cluster.servers call.1).pending = none := hnone
  by_cases hi : call.1 = l
  · subst hi
    simp [Cluster.commandsAt,Cluster.waiting,requestsTo,Cluster.checkPut,hl.2,hnone]
  · have hkeep : ((s.cluster.checkPut call.1 call.2).servers l).pending =
        (s.cluster.servers l).pending := by
      unfold Cluster.checkPut
      split_ifs
      · simp [Function.update_of_ne (fun he => hi he.symm : l ≠ call.1)]
      · rfl
    simp [Cluster.commandsAt,Cluster.waiting,requestsTo,hi,hkeep]

theorem Tracks.log (h : Tracks cfg l c s) (hc : cfg.Symmetric) {i : CString}
    (hl : s.cluster.leads l) (hs : s.onCluster cfg (.putLog i) = some s') :
    Tracks cfg l c s' := by
  obtain ⟨c',hstep,rfl⟩ := Option.map_eq_some_iff.mp hs
  refine h.onCluster (e := .putLog i) hc hl rfl hstep rfl h.calls ⟨[],?_,by simp⟩
  obtain ⟨-,hm⟩ := Option.ite_none_right_eq_some.mp hstep
  obtain ⟨request,hp,rfl⟩ := Option.map_eq_some_iff.mp hm
  have hpend : ∀ j, ((s.cluster.logPut i request).servers j).pending =
      if j = i then none else (s.cluster.servers j).pending := by
    intro j
    by_cases hj : j = i
    · rw [if_pos hj,hj]
      unfold Cluster.logPut Cluster.put
      dsimp only
      split_ifs <;> simp
    · rw [if_neg hj]
      unfold Cluster.logPut Cluster.put
      dsimp only
      split_ifs <;> simp [hj]
  by_cases hi : i = l
  · subst hi
    simp [Cluster.commandsAt,Cluster.waiting,hpend]
  · have hj : ¬l = i := fun he => hi he.symm
    simp [Cluster.commandsAt,Cluster.waiting,hpend,hi,hj]

theorem Tracks.step (h : Tracks cfg l c s) (hc : cfg.Symmetric) (hin : l ∈ cfg.names)
    {e : ServiceEvent} (hok : s.stable l e) (hs : (service cfg).step s e = some s') :
    Tracks cfg l c s' := by
  obtain ⟨hl,hq⟩ := hok
  cases e with
  | put key value =>
    obtain rfl := Option.some.inj hs
    refine ⟨h.pipe,?_,?_,h.logs⟩
    · intro request hr
      rcases List.mem_append.mp hr with hr | hr
      · exact h.ops request hr
      · obtain rfl := List.mem_singleton.mp hr
        rfl
    simp only [put]
    rw [requestsTo_append,requestsTo_put hc.nodup hin,← List.append_assoc]
    exact h.calls.append_right _
  | arrive k =>
    obtain ⟨call,hk,hs⟩ := Option.bind_eq_some_iff.mp hs
    exact h.arrive hc hl hk hs
  | log i => exact h.log hc hl hs
  | cluster e =>
    obtain ⟨hw,hs⟩ := Option.ite_none_left_eq_some.mp hs
    obtain ⟨c',hstep,rfl⟩ := Option.map_eq_some_iff.mp hs
    have hw : e.writes = false := by simpa using hw
    refine h.onCluster hc hl hq hstep rfl h.calls ⟨[],?_,by simp⟩
    have hcrash : e ≠ .crash l := by
      rintro rfl
      simp [disturbs,Cluster.disturbs] at hq
    have hcmd : s.cluster.commandsAt l e = [] := by
      cases e <;> first | rfl | exact absurd hw (by simp [Event.writes])
    rw [hcmd]
    simp [Cluster.waiting,Cluster.step_pending hw hcrash hstep]

/-- Every request has reached the leader at `l`, every entry logged there since `c` has
been pushed since, and every command that was pushed has been executed. -/
def Done (l : CString) (c : Cluster) (s : Service) : Prop :=
  requestsTo l s.calls = [] ∧ (s.cluster.servers l).pending = none ∧
    (s.cluster.servers l).node.stopped = false ∧
    (s.cluster.servers l).node.channel = some [] ∧
    ∀ e ∈ (s.cluster.raft l).logs.drop (c.raft l).logs.length,
      (e.index,e.data) ∈ (s.cluster.servers l).node.pushes.drop (c.servers l).node.pushes.length

instance (l : CString) (c : Cluster) (s : Service) : Decidable (s.Done l c) :=
  inferInstanceAs (Decidable (_ ∧ _ ∧ _ ∧ _ ∧ _))

/-- The commands of the new entries are the last that were pushed. -/
theorem Tracks.popped (h : Tracks cfg l c s) (hpipe : c.PipeInv cfg) (hd : s.Done l c) :
    ∃ old, (s.cluster.servers l).popped =
      old++(requestsTo l s.arrived).map PutAppendRequest.command := by
  obtain ⟨-,hpend,hstop,hchan,hall⟩ := hd
  obtain ⟨new,more,hlogs,happ,hfound,hdata⟩ := h.logs
  have hp := h.pipe.piped l
  have hpush : (s.cluster.servers l).node.pushes =
      (c.servers l).node.pushes++more.filter (fun p => p.2 ≠ []) := by
    rw [hp.pushes,happ,List.filter_append,(hpipe.piped l).pushes]
  rw [hlogs,hpush,List.drop_left,List.drop_left] at hall
  -- both the pushes and the entries are in the order of their indices
  have hmore : (more.filter (fun p => p.2 ≠ [])).Pairwise Below := by
    have := hp.ordered
    rw [happ] at this
    exact (List.pairwise_append.mp this).2.1.filter _
  obtain ⟨base,-,hcont⟩ := (h.pipe.tidy.1 l).logs
  have hord : ((c.raft l).logs++new).Pairwise (fun x y => x.index < y.index) := by
    rw [← hlogs]
    exact hcont.ordered
  obtain ⟨-,hnew,hcross⟩ := List.pairwise_append.mp hord
  have hentries : (new.map (fun e : LogEntry => (e.index,e.data))).Pairwise Below :=
    hnew.map _ (fun _ _ hlt => hlt)
  obtain ⟨low,hlow⟩ := eq_append_of_below hmore hentries
    (fun p hm => by
      obtain ⟨e,he,rfl⟩ := List.mem_map.mp hm
      exact hall e he)
    (fun p hm => by
      obtain ⟨hin,hne⟩ := List.mem_filter.mp hm
      obtain ⟨x,hx,hidx,hxd⟩ := hfound p hin (by simpa using hne)
      rw [hlogs] at hx
      rcases List.mem_append.mp hx with hx | hx
      · right
        intro q hq
        obtain ⟨e,he,rfl⟩ := List.mem_map.mp hq
        have hlt := hcross x hx e he
        show p.1 < e.index
        omega
      · left
        exact List.mem_map.mpr ⟨x,hx,by rw [hidx,hxd]⟩)
  obtain ⟨que,hque,hpop⟩ := hp.queue
  obtain rfl : que = [] := Option.some.inj (hque.symm.trans hchan)
  have hnew : new.map LogEntry.data =
      (requestsTo l s.arrived).map PutAppendRequest.command := by
    have := hdata hstop
    rwa [Cluster.waiting,hpend,Option.map_none,Option.toList_none,List.append_nil] at this
  refine ⟨(c.servers l).node.pushes.map Prod.snd++low.map Prod.snd,?_⟩
  rw [List.append_nil] at hpop
  rw [hpop,hpush,hlow,← hnew]
  simp [Function.comp_def]

theorem tracks_reachable (hc : cfg.Symmetric) (hin : l ∈ cfg.names)
    (h0 : (machine cfg).Path Machine.always (.initial cfg) c)
    (hnone : (c.servers l).pending = none)
    (h : (service cfg).Path (stable l) (.start c) s) : Tracks cfg l c s := by
  refine h.invariant (I := Tracks cfg l c) (fun _ _ _ hi hok hs => hi.step hc hin hok hs) ?_
  refine ⟨Cluster.PipeInv.reachable hc h0,by simp [start],by simp [start,requestsTo],[],[],
    by simp [start],by simp [start],by simp,?_⟩
  intro _
  simp [start,Cluster.waiting,hnone,requestsTo]

/-- With one stable leader, and once every `Put` is logged and applied, `kvDB_` maps every
key to the client's last value exactly when the last of its requests on each key to reach
the leader carried that value. -/
theorem last_put_wins (hc : cfg.Symmetric) (hin : l ∈ cfg.names)
    (h0 : (machine cfg).Path Machine.always (.initial cfg) c)
    (hnone : (c.servers l).pending = none)
    (h : (service cfg).Path (stable l) (.start c) s)
    (hplain : ∀ request ∈ s.puts, Token request.key ∧ Token request.value)
    (hd : s.Done l c) :
    (∀ key ∈ s.puts.map PutAppendRequest.key,
      (s.cluster.servers l).kvDB key = lastValue key s.puts) ↔
    ∀ key ∈ s.puts.map PutAppendRequest.key,
      lastValue key (requestsTo l s.arrived) = lastValue key s.puts := by
  have ht := tracks_reachable hc hin h0 hnone h
  obtain ⟨old,hpop⟩ := ht.popped (Cluster.PipeInv.reachable hc h0) hd
  have hperm : s.puts.Perm (requestsTo l s.arrived) := by
    have hcalls := ht.calls
    rwa [hd.1,List.append_nil] at hcalls
  have hkv : ∀ key ∈ s.puts.map PutAppendRequest.key,
      (s.cluster.servers l).kvDB key = lastValue key (requestsTo l s.arrived) := by
    intro key hkey
    have hne := lastValue_ne_none ((hperm.map PutAppendRequest.key).mem_iff.mp hkey)
    obtain ⟨value,hv⟩ := Option.ne_none_iff_exists'.mp hne
    rw [(ht.pipe.piped l).kvDB,hpop,Store.executeAll_append,Store.executeAll_puts _ ?_,hv]
    · rfl
    · intro request hr
      have hmem := hperm.mem_iff.mpr hr
      exact ⟨ht.ops request hmem,hplain request hmem⟩
  refine forall_congr' (fun key => imp_congr_right (fun hkey => ?_))
  rw [hkv key hkey]

/-- Events that elect `a` in the cluster of two. -/
def electing : List Event :=
  [.run ['a'] (.now 0),.run ['b'] (.now 0),.timer ['a'] (.now 451),.deliver 0 (.now 451),
    .respond 0]

/-- Two writes of `k`; the call at position `first` is the first to reach `a`, then the one
at `second`. Each command is copied to `b` and committed, and both are executed. -/
def writing (first second : Nat) : List ServiceEvent :=
  [.put ['k'] ['v'],.put ['k'] ['w'],
    .arrive first,.log ['a'],.cluster (.deliver 0 (.now 451)),.cluster (.respond 0),
    .arrive second,.log ['a'],.cluster (.deliver 0 (.now 451)),.cluster (.respond 0),
    .cluster (.receive ['a']),.cluster (.receive ['a'])]

/-- Runs both lists, and checks the two states that they lead to. -/
theorem written (es : List ServiceEvent) (test : Cluster → Service → Bool)
    (h : ((machine .two).exec Machine.always (.initial .two) electing).any (fun c =>
      ((service .two).exec (stable ['a']) (.start c) es).any (test c)) = true) :
    ∃ c s, (machine .two).Path Machine.always (.initial .two) c ∧
      (service .two).Path (stable ['a']) (.start c) s ∧ test c s = true := by
  obtain ⟨c,h0,hc⟩ := Machine.exec_any _ _ _ _ _ h
  obtain ⟨s,hs,ht⟩ := Machine.exec_any _ _ _ _ _ hc
  exact ⟨c,s,h0,hs,ht⟩

/-- The two calls arrive in the order of the writes. -/
theorem last_put_wins_inorder : ∃ s : Service, s.puts.length = 2 ∧
    (s.cluster.servers ['a']).kvDB ['k'] = some ['w'] ∧
    ((∀ key ∈ s.puts.map PutAppendRequest.key,
      (s.cluster.servers ['a']).kvDB key = lastValue key s.puts) ↔
    ∀ key ∈ s.puts.map PutAppendRequest.key,
      lastValue key (requestsTo ['a'] s.arrived) = lastValue key s.puts) := by
  obtain ⟨c,s,h0,hs,ht⟩ := written (writing 0 1) (fun c s =>
    (c.servers ['a']).pending = none ∧ s.Done ['a'] c ∧ s.puts.length = 2 ∧
    (s.cluster.servers ['a']).kvDB ['k'] = some ['w'] ∧
    ∀ request ∈ s.puts, Token request.key ∧ Token request.value) (by decide +kernel)
  obtain ⟨hnone,hd,hlen,hkv,hplain⟩ := of_decide_eq_true ht
  exact ⟨s,hlen,hkv,last_put_wins Config.two_symmetric (by decide) h0 hnone hs hplain hd⟩

/-- The call of the second write overtakes that of the first: `k` keeps the older value. -/
theorem last_put_wins_overtaken : ∃ (c : Cluster) (s : Service),
    (machine .two).Path Machine.always (.initial .two) c ∧
    (c.servers ['a']).pending = none ∧
    (service .two).Path (stable ['a']) (.start c) s ∧
    (∀ request ∈ s.puts, Token request.key ∧ Token request.value) ∧ s.Done ['a'] c ∧
    ['k'] ∈ s.puts.map PutAppendRequest.key ∧ lastValue ['k'] s.puts = some ['w'] ∧
    (s.cluster.servers ['a']).kvDB ['k'] = some ['v'] := by
  obtain ⟨c,s,h0,hs,ht⟩ := written (writing 2 0) (fun c s =>
    (c.servers ['a']).pending = none ∧
    (∀ request ∈ s.puts, Token request.key ∧ Token request.value) ∧ s.Done ['a'] c ∧
    ['k'] ∈ s.puts.map PutAppendRequest.key ∧ lastValue ['k'] s.puts = some ['w'] ∧
    (s.cluster.servers ['a']).kvDB ['k'] = some ['v']) (by decide +kernel)
  obtain ⟨hnone,hplain,hd,hk,hlast,hkv⟩ := of_decide_eq_true ht
  exact ⟨c,s,h0,hnone,hs,hplain,hd,hk,hlast,hkv⟩

end Service
end SRaftMuduo
