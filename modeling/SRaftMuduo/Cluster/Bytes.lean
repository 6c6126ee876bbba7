import SRaftMuduo.Cluster.Moves
import SRaftMuduo.Raft.RpcMessages
import Mathlib.Data.List.InsertIdx

namespace SRaftMuduo

/-- The bytes that are under way for a call: those of its request, or those of its response,
which are missing when the status is not OK. -/
inductive InFlight
  | request (bytes : CString)
  | response (bytes : Option CString)
  deriving DecidableEq

/-- A thread of `SRaftClient` in its call, made by process number `life` of `src`. -/
structure WireCall where
  src : CString
  life : Nat
  call : Call
  inFlight : InFlight
  deriving DecidableEq

/-- The cluster with the bytes between its processes. -/
structure WireCluster where
  servers : CString → Server
  net : List WireCall
  acks : List Ack
  commits : List Commit

/-- The message that is under way. -/
def Rpc.message (time : Nat) : Rpc → RpcMessage
  | .voteCall _ _ _ request => .requestVoteRequest time request
  | .voteReply _ _ _ _ response => .requestVoteResponse time response
  | .appendCall _ _ _ request _ => .appendEntriesRequest time request
  | .appendReply _ _ _ _ _ response => .appendEntriesResponse time response

namespace WireCall

/-- `stub_->RequestVote` and `stub_->AppendEntries` send their request. -/
def start (time : Nat) : Rpc → Option WireCall
  | .voteCall src dst life request => some ⟨src,life,.requestVote dst request,
      .request (RpcMessage.requestVoteRequest time request).serialize⟩
  | .appendCall src dst life request isHeartbeat =>
    some ⟨src,life,.appendEntries dst request isHeartbeat,
      .request (RpcMessage.appendEntriesRequest time request).serialize⟩
  | .voteReply .. => none
  | .appendReply .. => none

/-- The call that `RaftMessagesServiceImpl` is given, when the request parses. -/
def received (w : WireCall) (bytes : CString) : Option Rpc :=
  match w.call with
  | .requestVote peer _ =>
    match RpcKind.requestVoteRequest.parse bytes with
    | some (.requestVoteRequest _ request) => some (.voteCall w.src peer w.life request)
    | _ => none
  | .appendEntries peer _ isHeartbeat =>
    match RpcKind.appendEntriesRequest.parse bytes with
    | some (.appendEntriesRequest _ request) =>
      some (.appendCall w.src peer w.life request isHeartbeat)
    | _ => none

/-- What the thread goes on with: a response that is missing or does not parse stays as it
was constructed. -/
def answered (w : WireCall) (bytes : Option CString) : Rpc :=
  match w.call with
  | .requestVote peer request =>
    .voteReply w.src peer w.life request
      (match bytes.bind RpcKind.requestVoteResponse.parse with
      | some (.requestVoteResponse _ response) => response
      | _ => RequestVoteResponse.empty)
  | .appendEntries peer request isHeartbeat =>
    .appendReply w.src peer w.life request isHeartbeat
      (match bytes.bind RpcKind.appendEntriesResponse.parse with
      | some (.appendEntriesResponse _ response) => response
      | _ => AppendEntriesResponse.empty)

/-- The call as the cluster without bytes has it. -/
def rpc (w : WireCall) : Rpc :=
  match w.inFlight with
  | .request _ => w.call.rpc w.src w.life
  | .response bytes => w.answered bytes

def returned (w : WireCall) (bytes : Option CString) : WireCall :=
  {w with inFlight := .response bytes}

def fail (w : WireCall) : WireCall := w.returned none

/-- The service gets the request that the thread holds, unless it is not initialized. -/
def Faithful (w : WireCall) : Prop :=
  ∀ bytes, w.inFlight = .request bytes →
    w.received bytes = none ∨ w.received bytes = some w.rpc

end WireCall

namespace WireCluster

def abs (b : WireCluster) : Cluster := ⟨b.servers,b.net.map WireCall.rpc,b.acks,b.commits⟩

def initial (cfg : Config) : WireCluster :=
  ⟨(Cluster.initial cfg).servers,[],[],[]⟩

/-- A handler has left `c`; the calls that it started join `net`. -/
def absorb (b : WireCluster) (time : Nat) (net : List WireCall) (c : Cluster) : WireCluster :=
  {b with
    servers := c.servers
    net := net++(c.net.drop net.length).filterMap (WireCall.start time)
    acks := c.acks
    commits := c.commits}

/-- The bytes of the response that the service has set. -/
def reply (time k : Nat) (c : Cluster) : Option CString :=
  c.net[k]?.map fun rpc => (rpc.message time).serialize

/-- A request that does not parse ends the call with a status that is not OK. -/
def deliver (cfg : Config) (b : WireCluster) (k : Nat) (r : Readings) (time : Nat)
    (w : WireCall) : Option WireCluster :=
  match w.inFlight with
  | .response _ => none
  | .request bytes =>
    match w.received bytes with
    | none => some {b with net := b.net.set k w.fail}
    | some rpc => (b.abs.deliverCall cfg k r rpc).map fun c =>
      b.absorb time (b.net.set k (w.returned (reply time k c))) c

def respond (cfg : Config) (b : WireCluster) (k time : Nat) (w : WireCall) :
    Option WireCluster :=
  match w.inFlight with
  | .request _ => none
  | .response bytes =>
    (b.abs.respondCall cfg k (w.answered bytes)).map (b.absorb time (b.net.eraseIdx k))

/-- An event, and the time that the messages of its handler are given. -/
def step (cfg : Config) (b : WireCluster) : Event × Nat → Option WireCluster
  | (.deliver k r,time) => b.net[k]?.bind (b.deliver cfg k r time)
  | (.respond k,time) => b.net[k]?.bind (b.respond cfg k time)
  | (.fail k,_) => b.net[k]?.map fun w => {b with net := b.net.set k w.fail}
  | (e,time) => (Cluster.step cfg b.abs e).map (b.absorb time b.net)

def machine (cfg : Config) : Machine WireCluster (Event × Nat) :=
  ⟨fun b => b = initial cfg,step cfg⟩

/-- The messages that are in flight after the event fit their types. -/
def sendsInRange (cfg : Config) (b : WireCluster) (e : Event × Nat) : Prop :=
  ∀ c ∈ Cluster.step cfg b.abs e.1, ∀ rpc ∈ c.net, (rpc.message e.2).InRange

instance (cfg : Config) (b : WireCluster) (e : Event × Nat) :
    Decidable (b.sendsInRange cfg e) :=
  inferInstanceAs (Decidable (∀ c ∈ Cluster.step cfg b.abs e.1,
    ∀ rpc ∈ c.net, (rpc.message e.2).InRange))

def Faithful (b : WireCluster) : Prop := ∀ w ∈ b.net, w.Faithful

end WireCluster

namespace WireCall

variable {w : WireCall} {time life : Nat} {src : CString} {call : Call} {rpc : Rpc}

theorem start_call (h : ((call.rpc src life).message time).InRange) :
    ∃ w, start time (call.rpc src life) = some w ∧ w.rpc = call.rpc src life ∧ w.Faithful := by
  have hparse := RpcMessage.parse_whole h
  cases call with
  | requestVote peer request =>
    refine ⟨_,rfl,rfl,fun bytes hbytes => .inr ?_⟩
    obtain rfl := InFlight.request.inj hbytes
    have hparse : RpcKind.requestVoteRequest.parse
        (RpcMessage.requestVoteRequest time request).serialize = _ := hparse
    simp only [received,hparse]
    rfl
  | appendEntries peer request isHeartbeat =>
    refine ⟨_,rfl,rfl,fun bytes hbytes => ?_⟩
    obtain rfl := InFlight.request.inj hbytes
    have hparse : RpcKind.appendEntriesRequest.parse
        (RpcMessage.appendEntriesRequest time request).serialize = _ := hparse
    split_ifs at hparse
    · right
      simp only [received,hparse]
      rfl
    · left
      simp only [received,hparse]

theorem fail_rpc (w : WireCall) : w.fail.rpc = Cluster.failCall w.rpc := by
  obtain ⟨src,life,call,inFlight⟩ := w
  cases inFlight <;> cases call <;> rfl

theorem returned_faithful (w : WireCall) (bytes : Option CString) :
    (w.returned bytes).Faithful := nofun

/-- A response, set or not, is read as the handler left it. -/
theorem answered_voteReply {response : RequestVoteResponse} {peer : CString}
    {request : RequestVoteRequest} (hw : w.call = .requestVote peer request)
    (hset : response.hasRequired = false → response = RequestVoteResponse.empty)
    (h : (RpcMessage.requestVoteResponse time response).InRange) :
    w.answered (some (RpcMessage.requestVoteResponse time response).serialize) =
      .voteReply w.src peer w.life request response := by
  have hparse : RpcKind.requestVoteResponse.parse
    (RpcMessage.requestVoteResponse time response).serialize = _ := RpcMessage.parse_whole h
  have hinit : (RpcMessage.requestVoteResponse time response).isInitialized =
      response.hasRequired := Bool.and_true _
  simp only [answered,hw,Option.bind_some,hparse,hinit]
  cases hr : response.hasRequired with
  | true => simp
  | false => rw [if_neg Bool.false_ne_true,hset hr]

theorem answered_appendReply {response : AppendEntriesResponse} {peer : CString}
    {request : AppendEntriesRequest} {isHeartbeat : Bool}
    (hw : w.call = .appendEntries peer request isHeartbeat)
    (h : (RpcMessage.appendEntriesResponse time response).InRange) :
    w.answered (some (RpcMessage.appendEntriesResponse time response).serialize) =
      .appendReply w.src peer w.life request isHeartbeat response := by
  have hparse : RpcKind.appendEntriesResponse.parse
    (RpcMessage.appendEntriesResponse time response).serialize = _ := RpcMessage.parse_whole h
  simp only [answered,hw,Option.bind_some,hparse]
  rfl

theorem start_calls {calls : List Call}
    (h : ∀ rpc ∈ calls.map (Call.rpc src life), (rpc.message time).InRange) :
    ((calls.map (Call.rpc src life)).filterMap (start time)).map WireCall.rpc =
        calls.map (Call.rpc src life) ∧
      ∀ w ∈ (calls.map (Call.rpc src life)).filterMap (start time), w.Faithful := by
  induction calls with
  | nil => exact ⟨rfl,nofun⟩
  | cons call calls ih =>
    rw [List.map_cons,List.forall_mem_cons] at h
    obtain ⟨w,hw,hrpc,hfaithful⟩ := start_call h.1
    obtain ⟨hmap,hall⟩ := ih h.2
    rw [List.map_cons,List.filterMap_cons,hw]
    exact ⟨by rw [List.map_cons,hrpc,hmap],List.forall_mem_cons.mpr ⟨hfaithful,hall⟩⟩

end WireCall

namespace WireCluster

variable {cfg : Config} {b b' : WireCluster} {c c' : Cluster} {e : Event} {time k : Nat}
  {w : WireCall} {net : List WireCall}

/-- The bytes before a handler stand for the calls before it, and so they do after it. -/
theorem absorb_abs {src : CString} {life : Nat} {calls : List Call}
    (hnet : c.net = net.map WireCall.rpc++calls.map (Call.rpc src life))
    (hrange : ∀ rpc ∈ c.net, (rpc.message time).InRange) (hfaithful : ∀ w ∈ net, w.Faithful) :
    (b.absorb time net c).abs = c ∧ (b.absorb time net c).Faithful := by
  have hdrop : c.net.drop net.length = calls.map (Call.rpc src life) := by
    rw [hnet,← List.length_map WireCall.rpc,List.drop_left]
  have hsent : ∀ rpc ∈ calls.map (Call.rpc src life), (rpc.message time).InRange := fun rpc hrpc =>
    hrange rpc (by rw [hnet]; exact List.mem_append_right _ hrpc)
  have hcalls := WireCall.start_calls hsent
  constructor
  · obtain ⟨servers,net',acks,commits⟩ := c
    rw [absorb,abs,hdrop,List.map_append,hcalls.1,← hnet]
  · intro w hw
    rw [absorb,hdrop] at hw
    cases List.mem_append.mp hw with
    | inl hw => exact hfaithful w hw
    | inr hw => exact hcalls.2 w hw

/-- A handler of the process itself adds its calls to those in flight. -/
theorem local_net (h : Cluster.step cfg c e = some c')
    (hd : ∀ k r, e ≠ .deliver k r) (hr : ∀ k, e ≠ .respond k) (hf : ∀ k, e ≠ .fail k) :
    ∃ src life calls, c'.net = c.net++List.map (Call.rpc src life) calls := by
  rcases Cluster.step_cases h with
    ⟨i,n,net,-,hm,hmoved⟩ | ⟨k,rpc,rfl,-,-⟩ | ⟨i,-,-,rfl⟩ | ⟨-,hq⟩
  · refine ⟨i,(c.servers i).life,n.calls,?_⟩
    rw [hmoved.net]
    cases hm with
    | run | timer | doLog | putLog => rfl
    | voteCall k r => exact absurd rfl (hd k r)
    | appendCall k r => exact absurd rfl (hd k r)
    | voteReply k => exact absurd rfl (hr k)
    | appendReply k => exact absurd rfl (hr k)
  · exact absurd rfl (hf k)
  · exact ⟨i,0,[],(List.append_nil _).symm⟩
  · exact ⟨[],0,[],by rw [hq.net,List.map_nil,List.append_nil]⟩

theorem local_refines (hc : Cluster.step cfg b.abs e = some c)
    (hd : ∀ k r, e ≠ .deliver k r) (hr : ∀ k, e ≠ .respond k) (hf : ∀ k, e ≠ .fail k)
    (hrange : sendsInRange cfg b (e,time)) (h : b.Faithful) :
    (b.absorb time b.net c).abs = c ∧ (b.absorb time b.net c).Faithful := by
  obtain ⟨src,life,calls,hnet⟩ := local_net hc hd hr hf
  exact absorb_abs hnet (hrange c hc) h

theorem fail_refines (cfg : Config) (hk : b.net[k]? = some w) (h : b.Faithful) :
    Cluster.step cfg b.abs (.fail k) = some (abs {b with net := b.net.set k w.fail}) ∧
      Faithful {b with net := b.net.set k w.fail} := by
  have habs : b.abs.net[k]? = some w.rpc := by rw [abs,List.getElem?_map,hk]; rfl
  constructor
  · rw [Cluster.step,habs,Option.map_some,← w.fail_rpc]
    rw [abs,abs,List.map_set]
  · intro x hx
    cases List.mem_or_eq_of_mem_set hx with
    | inl hx => exact h x hx
    | inr hx => exact hx ▸ w.returned_faithful none

/-- The service answers a call: its bytes stand for the response that was set. -/
theorem reply_refines {src : CString} {life : Nat} {calls : List Call} {rpc : Rpc}
    (hk : b.net[k]? = some w)
    (hnet : c.net = b.abs.net.set k rpc++calls.map (Call.rpc src life))
    (hrpc : w.answered (some (rpc.message time).serialize) = rpc)
    (hrange : ∀ rpc ∈ c.net, (rpc.message time).InRange) (h : b.Faithful) :
    (b.absorb time (b.net.set k (w.returned (reply time k c))) c).abs = c ∧
      (b.absorb time (b.net.set k (w.returned (reply time k c))) c).Faithful := by
  have hlen : k < (b.abs.net.set k rpc).length := by
    rw [List.length_set,abs,List.length_map]
    exact (List.getElem?_eq_some_iff.mp hk).1
  have hreply : reply time k c = some (rpc.message time).serialize := by
    rw [reply,hnet,List.getElem?_append_left hlen,List.getElem?_set_self (by simpa using hlen)]
    rfl
  rw [hreply]
  have hset : (w.returned (some (rpc.message time).serialize)).rpc = rpc := hrpc
  have habs : c.net = (b.net.set k (w.returned (some (rpc.message time).serialize))).map
      WireCall.rpc++calls.map (Call.rpc src life) := by
    rw [hnet,List.map_set,hset]
    rfl
  refine absorb_abs habs hrange fun x hx => ?_
  cases List.mem_or_eq_of_mem_set hx with
  | inl hx => exact h x hx
  | inr hx => exact hx ▸ w.returned_faithful _

theorem deliver_refines {r : Readings} {bytes : CString} (hk : b.net[k]? = some w)
    (hw : w.inFlight = .request bytes) (hc : b.abs.deliverCall cfg k r w.rpc = some c)
    (hrange : ∀ rpc ∈ c.net, (rpc.message time).InRange) (h : b.Faithful) :
    (b.absorb time (b.net.set k (w.returned (reply time k c))) c).abs = c ∧
      (b.absorb time (b.net.set k (w.returned (reply time k c))) c).Faithful := by
  have hmem {rpc : Rpc} {calls : List Rpc} (hnet : c.net = b.abs.net.set k rpc++calls) :
      rpc ∈ c.net := by
    have hlen : k < b.abs.net.length := by
      rw [abs,List.length_map]
      exact (List.getElem?_eq_some_iff.mp hk).1
    rw [hnet]
    exact List.mem_append_left _ (List.mem_set hlen _)
  cases hcall : w.call with
  | requestVote peer request =>
    have hrpc : w.rpc = .voteCall w.src peer w.life request := by
      rw [WireCall.rpc,hw,hcall]
      rfl
    rw [hrpc] at hc
    let answer := (b.servers peer).node.onRequestVoteRequest request
    let response := if answer.2.hasRequired then answer.2 else RequestVoteResponse.empty
    obtain ⟨-,hc⟩ := Option.ite_none_right_eq_some.mp hc
    have hnet : c.net = b.abs.net.set k (.voteReply w.src peer w.life request response)++
        answer.1.calls.map (Call.rpc peer (b.servers peer).life) := by
      rw [← Option.some.inj hc]
      exact (Cluster.moved_onNode b.abs peer _ _).net
    refine reply_refines hk hnet (WireCall.answered_voteReply hcall ?_ ?_) hrange h
    · intro hunset
      show (if answer.2.hasRequired = true then _ else _) = _
      rw [if_neg]
      intro hset
      have hsame : response = answer.2 := if_pos hset
      exact absurd hunset (by simp [hsame,hset])
    · exact hrange _ (hmem hnet)
  | appendEntries peer request isHeartbeat =>
    have hrpc : w.rpc = .appendCall w.src peer w.life request isHeartbeat := by
      rw [WireCall.rpc,hw,hcall]
      rfl
    rw [hrpc] at hc
    let answer := (b.servers peer).node.onAppendEntriesRequest request r
    obtain ⟨-,hc⟩ := Option.ite_none_right_eq_some.mp hc
    have hnet : c.net =
        b.abs.net.set k (.appendReply w.src peer w.life request isHeartbeat answer.2)++
          answer.1.calls.map (Call.rpc peer (b.servers peer).life) := by
      rw [← Option.some.inj hc]
      exact (Cluster.moved_onNode b.abs peer _ _).net
    exact reply_refines hk hnet (WireCall.answered_appendReply hcall (hrange _ (hmem hnet)))
      hrange h

theorem respond_refines {bytes : Option CString} (hk : b.net[k]? = some w)
    (hw : w.inFlight = .response bytes)
    (hc : b.abs.respondCall cfg k (w.answered bytes) = some c)
    (hrange : ∀ rpc ∈ c.net, (rpc.message time).InRange) (h : b.Faithful) :
    (b.absorb time (b.net.eraseIdx k) c).abs = c ∧
      (b.absorb time (b.net.eraseIdx k) c).Faithful := by
  have habs : b.abs.net[k]? = some (w.answered bytes) := by
    rw [abs,List.getElem?_map,hk,Option.map_some,WireCall.rpc,hw]
  obtain ⟨i,n,net,-,hm,hmoved⟩ := Cluster.respondCall_move habs hc
  have hnet : net = (b.net.eraseIdx k).map WireCall.rpc := by
    rw [← List.eraseIdx_map]
    cases hm <;> rfl
  have hcalls := hmoved.net
  rw [hnet] at hcalls
  exact absorb_abs hcalls hrange fun x hx => h x (List.mem_of_mem_eraseIdx hx)

/-- A step with bytes is the step without, or the failure of a call whose request does not
parse. -/
theorem step_refines (hs : step cfg b (e,time) = some b') (hrange : sendsInRange cfg b (e,time))
    (h : b.Faithful) : (∃ e', Cluster.step cfg b.abs e' = some b'.abs) ∧ b'.Faithful := by
  have hlocal (c : Cluster) (hc : Cluster.step cfg b.abs e = some c)
      (hb : b.absorb time b.net c = b') (hd : ∀ k r, e ≠ .deliver k r)
      (hr : ∀ k, e ≠ .respond k) (hf : ∀ k, e ≠ .fail k) :
      (∃ e', Cluster.step cfg b.abs e' = some b'.abs) ∧ b'.Faithful := by
    obtain ⟨habs,hfaithful⟩ := local_refines hc hd hr hf hrange h
    rw [hb] at habs hfaithful
    exact ⟨⟨e,by rw [habs]; exact hc⟩,hfaithful⟩
  cases e with
  | run | timer | doLog | crash | receive | putCheck | putLog =>
    obtain ⟨c,hc,hb⟩ := Option.map_eq_some_iff.mp hs
    exact hlocal c hc hb nofun nofun nofun
  | deliver k r =>
    obtain ⟨w,hk,hs⟩ := Option.bind_eq_some_iff.mp hs
    have habs : b.abs.net[k]? = some w.rpc := by rw [abs,List.getElem?_map,hk]; rfl
    rw [deliver] at hs
    split at hs
    · cases hs
    · next bytes hw =>
      cases h w (List.mem_of_getElem? hk) bytes hw with
      | inl hnone =>
        rw [hnone] at hs
        obtain rfl := Option.some.inj hs
        obtain ⟨hstep,hfaithful⟩ := fail_refines cfg hk h
        exact ⟨⟨_,hstep⟩,hfaithful⟩
      | inr hsome =>
        rw [hsome] at hs
        obtain ⟨c,hc,rfl⟩ := Option.map_eq_some_iff.mp hs
        have hstep : Cluster.step cfg b.abs (.deliver k r) = some c := by
          rw [Cluster.step,habs]
          exact hc
        obtain ⟨heq,hfaithful⟩ := deliver_refines hk hw hc (hrange c hstep) h
        exact ⟨⟨_,heq.symm ▸ hstep⟩,hfaithful⟩
  | respond k =>
    obtain ⟨w,hk,hs⟩ := Option.bind_eq_some_iff.mp hs
    have habs : b.abs.net[k]? = some w.rpc := by rw [abs,List.getElem?_map,hk]; rfl
    rw [respond] at hs
    split at hs
    · cases hs
    · next bytes hw =>
      obtain ⟨c,hc,rfl⟩ := Option.map_eq_some_iff.mp hs
      have hstep : Cluster.step cfg b.abs (.respond k) = some c := by
        rw [Cluster.step,habs,WireCall.rpc,hw]
        exact hc
      obtain ⟨heq,hfaithful⟩ := respond_refines hk hw hc (hrange c hstep) h
      exact ⟨⟨_,heq.symm ▸ hstep⟩,hfaithful⟩
  | fail k =>
    obtain ⟨w,hk,rfl⟩ := Option.map_eq_some_iff.mp hs
    obtain ⟨hstep,hfaithful⟩ := fail_refines cfg hk h
    exact ⟨⟨_,hstep⟩,hfaithful⟩

/-- Every run of the cluster with bytes is one of the cluster without, while the messages fit
their types. -/
theorem run_refines (h : (machine cfg).Path (sendsInRange cfg) (initial cfg) b) :
    (SRaftMuduo.machine cfg).Path Machine.always (.initial cfg) b.abs := by
  have hsim : ∃ c, (SRaftMuduo.machine cfg).Path Machine.always (.initial cfg) c ∧
      c = b.abs ∧ b.Faithful := by
    refine h.simulates (R := fun b c => c = b.abs ∧ b.Faithful) ?_ ⟨rfl,nofun⟩
    rintro b c ⟨e,time⟩ b' ⟨rfl,hfaithful⟩ hrange hs
    obtain ⟨⟨e',hstep⟩,hfaithful'⟩ := step_refines hs hrange hfaithful
    exact ⟨b'.abs,(Machine.Path.refl b.abs).tail trivial hstep,rfl,hfaithful'⟩
  obtain ⟨c,hc,rfl,-⟩ := hsim
  exact hc

/-- An election and a command that is copied and committed. -/
theorem run_refines_commit : ∃ b,
    (SRaftMuduo.machine .two).Path Machine.always (.initial .two) (abs b) ∧
      (b.abs.raft ['a']).commitIndex = 0 ∧ (b.abs.raft ['b']).logs ≠ [] := by
  obtain ⟨b,hpath,hend⟩ := Machine.exec_any (machine .two) (sendsInRange .two) (initial .two)
    [(.run ['a'] (.now 0),5),(.run ['b'] (.now 0),5),(.timer ['a'] (.now 451),5),
      (.deliver 0 (.now 451),6),(.respond 0,6),(.doLog ['a'] ['x'],7),(.deliver 0 (.now 451),8),
      (.respond 0,8)]
    (fun b => decide ((b.abs.raft ['a']).commitIndex = 0 ∧ (b.abs.raft ['b']).logs ≠ []))
    (by decide +kernel)
  exact ⟨b,run_refines hpath,of_decide_eq_true hend⟩

end WireCluster

end SRaftMuduo
