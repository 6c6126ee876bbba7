import SRaftMuduo.Cluster.Wiring
import Mathlib.Data.List.Perm.Basic

namespace SRaftMuduo

def Rpc.life : Rpc → Nat
  | .voteCall _ _ life _ => life
  | .voteReply _ _ life _ _ => life
  | .appendCall _ _ life _ _ => life
  | .appendReply _ _ life _ _ _ => life

/-- The node that a call of `i` asks for its vote in term `t`. -/
def Rpc.asks (i : CString) (t : Nat) : Rpc → Option CString
  | .voteCall src dst _ request => if src = i ∧ request.term = t then some dst else none
  | .voteReply src dst _ request _ => if src = i ∧ request.term = t then some dst else none
  | _ => none

/-- The nodes whose votes for `i` in term `t` are on their way. -/
def asked (i : CString) (t : Nat) (net : List Rpc) : List CString := net.filterMap (Rpc.asks i t)

section Asked

variable {i j : CString} {t : Nat} {net : List Rpc} {rpc rpc' : Rpc} {k : Nat}

theorem asked_append (i : CString) (t : Nat) (a b : List Rpc) :
    asked i t (a++b) = asked i t a++asked i t b :=
  List.filterMap_append

theorem asked_set (hk : net[k]? = some rpc) (he : rpc'.asks i t = rpc.asks i t) :
    asked i t (net.set k rpc') = asked i t net := by
  induction net generalizing k with
  | nil => rfl
  | cons x net ih =>
    cases k with
    | zero =>
      obtain rfl : x = rpc := by simpa using hk
      simp [asked,List.filterMap_cons,he]
    | succ k =>
      have hrest := ih (k := k) (by simpa using hk)
      simp only [asked,List.set_cons_succ,List.filterMap_cons] at hrest ⊢
      rw [hrest]

theorem asked_erase (hk : net[k]? = some rpc) :
    (asked i t net).Perm ((rpc.asks i t).toList++asked i t (net.eraseIdx k)) := by
  obtain ⟨hlt,rfl⟩ := List.getElem?_eq_some_iff.mp hk
  have hperm := ((List.getElem_cons_eraseIdx_perm hlt).symm.filterMap (Rpc.asks i t))
  refine hperm.trans ?_
  cases h : (net[k]).asks i t <;> simp [asked,h]

theorem asks_calls (hij : j ≠ i) (life : Nat) (calls : List Call) :
    asked i t (calls.map (Call.rpc j life)) = [] := by
  refine List.filterMap_eq_nil_iff.mpr ?_
  intro rpc hrpc
  obtain ⟨call,-,rfl⟩ := List.mem_map.mp hrpc
  cases call <;> simp [Call.rpc,Rpc.asks,hij]

theorem asked_none (h : ∀ rpc ∈ net, rpc.asks i t = none) : asked i t net = [] :=
  List.filterMap_eq_nil_iff.mpr h

end Asked

namespace Cluster

variable {cfg : Config} {c c' : Cluster}

/-- A process that has made a call runs, and between handlers no call waits to be sent. -/
structure Callers (c : Cluster) : Prop where
  idle : ∀ i, (c.servers i).node.calls = []
  life : ∀ rpc ∈ c.net, rpc.life ≤ (c.servers rpc.src).life ∧
    (rpc.life = (c.servers rpc.src).life → (c.raft rpc.src).running = true)

end Cluster

namespace Node

@[simp] theorem run_calls (r : Readings) (n : Node) : (n.run r).calls = n.calls := by
  unfold run load
  split <;> rfl

@[simp] theorem onAppendEntriesRequest_calls (request : AppendEntriesRequest) (r : Readings)
    (n : Node) : (n.onAppendEntriesRequest request r).1.calls = n.calls := by
  rcases onAppendEntriesRequest_cases request r n with
    ⟨-,he⟩ | ⟨-,-,-,due,he⟩ | ⟨-,-,-,-,logs,-,he⟩ | ⟨-,-,-,-,he⟩ <;> rw [he]
  all_goals rfl

@[simp] theorem onRequestVoteRequest_calls (request : RequestVoteRequest) (n : Node) :
    (n.onRequestVoteRequest request).1.calls = n.calls := by
  rcases onRequestVoteRequest_cases request n with
    ⟨-,he,-⟩ | ⟨-,-,-,he⟩ | ⟨-,-,-,-,he⟩ <;> rw [he]
  all_goals rfl

@[simp] theorem onRequestVoteResponse_calls (response : RequestVoteResponse) (n : Node) :
    (n.onRequestVoteResponse response).calls = n.calls := by
  rcases onRequestVoteResponse_cases response n with
    ⟨-,he⟩ | ⟨-,-,he⟩ | ⟨-,-,-,he⟩ <;> rw [he]
  all_goals rfl

@[simp] theorem onAppendEntriesReponse_calls (response : AppendEntriesResponse)
    (isHeartbeat : Bool) (n : Node) :
    (n.onAppendEntriesReponse response isHeartbeat).calls = n.calls := by
  obtain ⟨-,-,-,-,hc⟩ := onAppendEntriesReponse_frame response isHeartbeat n
  exact hc

/-- A handler does not stop a node from running, and only a running node starts calls. -/
def RunsOn (n m : Node) : Prop :=
  (n.raft.running = true → m.raft.running = true) ∧
    (m.calls = n.calls ∨ m.raft.running = true)

theorem RunsOn.same {n m : Node} (hr : m.raft.running = n.raft.running)
    (hc : m.calls = n.calls) : RunsOn n m :=
  ⟨fun h => hr.trans h,.inl hc⟩

theorem RunsOn.running {n m : Node} (h : n.raft.running = true)
    (hr : m.raft.running = n.raft.running) : RunsOn n m :=
  ⟨fun _ => hr.trans h,.inr (hr.trans h)⟩

theorem onTimer_runsOn (r : Readings) (n : Node) : RunsOn n (n.onTimer r) := by
  rcases onTimer_cases r n with ⟨-,he⟩ | ⟨hrun,-,due,he⟩ | ⟨hrun,-,he⟩ | ⟨hrun,-,due,he⟩ <;>
    rw [he]
  · exact .same rfl rfl
  · obtain ⟨ci,la,hr⟩ := doAppendEntries_raft true
      {n with raft := {n.raft with dueHeartBeat := due}}
    exact .running hrun (by rw [hr])
  · refine .running hrun ?_
    rcases timerFail_cases r (n.doElection r) with he' | ⟨-,due,he'⟩ <;> rw [he'] <;> simp
  · exact .same rfl rfl

theorem doLog_runsOn (cmd : CString) (n : Node) : RunsOn n (n.doLog cmd).1 := by
  rcases doLog_cases cmd n with ⟨-,he⟩ | ⟨-,he⟩ | ⟨hrun,-,-,he⟩ <;> rw [he]
  · exact .same rfl rfl
  · exact .same rfl rfl
  · obtain ⟨ci,la,hr⟩ := logEntry_raft cmd n
    exact .running hrun (by rw [hr])

theorem onAppendEntriesRequest_runsOn (request : AppendEntriesRequest) (r : Readings)
    (n : Node) : RunsOn n (n.onAppendEntriesRequest request r).1 := by
  rcases onAppendEntriesRequest_cases request r n with
    ⟨-,he⟩ | ⟨-,-,-,due,he⟩ | ⟨-,-,-,-,logs,-,he⟩ | ⟨-,-,-,-,he⟩ <;> rw [he]
  all_goals exact .same rfl rfl

theorem onRequestVoteRequest_runsOn (request : RequestVoteRequest) (n : Node) :
    RunsOn n (n.onRequestVoteRequest request).1 := by
  rcases onRequestVoteRequest_cases request n with
    ⟨-,he,-⟩ | ⟨-,-,-,he⟩ | ⟨-,-,-,-,he⟩ <;> rw [he]
  all_goals exact .same rfl rfl

theorem onRequestVoteResponse_runsOn (response : RequestVoteResponse) (n : Node) :
    RunsOn n (n.onRequestVoteResponse response) := by
  rcases onRequestVoteResponse_cases response n with
    ⟨-,he⟩ | ⟨-,-,he⟩ | ⟨-,-,-,he⟩ <;> rw [he]
  all_goals exact .same rfl rfl

theorem onAppendEntriesReponse_runsOn (response : AppendEntriesResponse)
    (isHeartbeat : Bool) (n : Node) :
    RunsOn n (n.onAppendEntriesReponse response isHeartbeat) := by
  exact .same (onAppendEntriesReponse_running response isHeartbeat n)
    (onAppendEntriesReponse_calls response isHeartbeat n)

theorem run_runsOn (r : Readings) (n : Node) : RunsOn n (n.run r) := ⟨fun _ => rfl,.inr rfl⟩

end Node

namespace Cluster

variable {cfg : Config} {c c' : Cluster}

theorem move_runsOn {i : CString} {e : Event} {n : Node} {net : List Rpc}
    (hm : c.Move i e n net) : Node.RunsOn (c.servers i).node n := by
  cases hm with
  | run r _ => exact Node.run_runsOn r _
  | timer r => exact Node.onTimer_runsOn r _
  | doLog cmd => exact Node.doLog_runsOn cmd _
  | putLog request _ => exact Node.doLog_runsOn _ _
  | voteCall k r src life request response _ _ => exact Node.onRequestVoteRequest_runsOn request _
  | appendCall k r src life request isHeartbeat _ _ =>
    exact Node.onAppendEntriesRequest_runsOn request r _
  | voteReply k dst request response _ => exact Node.onRequestVoteResponse_runsOn response _
  | appendReply k dst request isHeartbeat response _ =>
    exact Node.onAppendEntriesReponse_runsOn response isHeartbeat _

/-- The calls that are left of those in flight come from those that were. -/
theorem move_net {i : CString} {e : Event} {n : Node} {net : List Rpc}
    (hm : c.Move i e n net) {rpc : Rpc} (h : rpc ∈ net) :
    ∃ old ∈ c.net, rpc.src = old.src ∧ rpc.life = old.life := by
  have hset : ∀ k old new, c.net[k]? = some old → rpc ∈ c.net.set k new →
      new.src = old.src ∧ new.life = old.life →
      ∃ old ∈ c.net, rpc.src = old.src ∧ rpc.life = old.life := by
    intro k old new hk hmem hsame
    rcases List.mem_or_eq_of_mem_set hmem with hmem | rfl
    · exact ⟨rpc,hmem,rfl,rfl⟩
    · exact ⟨old,List.mem_of_getElem? hk,hsame⟩
  cases hm with
  | run r _ => exact ⟨rpc,h,rfl,rfl⟩
  | timer r => exact ⟨rpc,h,rfl,rfl⟩
  | doLog cmd => exact ⟨rpc,h,rfl,rfl⟩
  | putLog request _ => exact ⟨rpc,h,rfl,rfl⟩
  | voteCall k r src life request response hk _ => exact hset k _ _ hk h ⟨rfl,rfl⟩
  | appendCall k r src life request isHeartbeat hk _ => exact hset k _ _ hk h ⟨rfl,rfl⟩
  | voteReply k dst request response _ => exact ⟨rpc,List.mem_of_mem_eraseIdx h,rfl,rfl⟩
  | appendReply k dst request isHeartbeat response _ =>
    exact ⟨rpc,List.mem_of_mem_eraseIdx h,rfl,rfl⟩

/-- No handler puts a call for a vote in place of another. -/
theorem move_asked {i : CString} {e : Event} {n : Node} {net : List Rpc}
    (hm : c.Move i e n net) (j : CString) (t : Nat) :
    (asked j t net).Sublist (asked j t c.net) := by
  have hset : ∀ k old new, c.net[k]? = some old → new.asks j t = old.asks j t →
      (asked j t (c.net.set k new)).Sublist (asked j t c.net) := by
    intro k old new hk he
    rw [asked_set hk he]
  cases hm with
  | run r _ => exact List.Sublist.refl _
  | timer r => exact List.Sublist.refl _
  | doLog cmd => exact List.Sublist.refl _
  | putLog request _ => exact List.Sublist.refl _
  | voteCall k r src life request response hk _ => exact hset k _ _ hk rfl
  | appendCall k r src life request isHeartbeat hk _ => exact hset k _ _ hk rfl
  | voteReply k dst request response _ => exact (List.eraseIdx_sublist c.net k).filterMap _
  | appendReply k dst request isHeartbeat response _ =>
    exact (List.eraseIdx_sublist c.net k).filterMap _

theorem Callers.initial (cfg : Config) : Callers (.initial cfg) :=
  ⟨fun _ => rfl,fun rpc h => absurd h (by simp [Cluster.initial])⟩

theorem Callers.step (h : Callers c) {e : Event} (hs : (machine cfg).step c e = some c') :
    Callers c' := by
  rcases step_cases hs with
    ⟨i,n,net,-,hmove,hmoved⟩ | ⟨k,rpc,-,hk,rfl⟩ | ⟨i,-,-,rfl⟩ | ⟨-,hq⟩
  · obtain ⟨hrun,hcalls⟩ := move_runsOn hmove
    have hnode : (c'.raft i).running = n.raft.running := by rw [raft,hmoved.node]
    have hself : (c'.servers i).node.calls = [] := by rw [hmoved.node]
    refine ⟨hmoved.each (P := fun _ s => s.node.calls = []) hself (fun j _ => h.idle j),?_⟩
    refine hmoved.each_rpc ?_ ?_
    · intro rpc hrpc
      obtain ⟨old,hold,hsrc,hlife⟩ := move_net hmove hrpc
      obtain ⟨hle,heq⟩ := h.life old hold
      rw [hsrc,hlife]
      by_cases hj : old.src = i
      · rw [hj,hmoved.life,hnode]
        rw [hj] at hle heq
        exact ⟨hle,fun hl => hrun (heq hl)⟩
      · rw [raft,hmoved.other _ hj]
        exact ⟨hle,heq⟩
    · intro call hc
      have hsrc : (call.rpc i (c.servers i).life).src = i ∧
          (call.rpc i (c.servers i).life).life = (c.servers i).life := by
        cases call <;> exact ⟨rfl,rfl⟩
      rw [hsrc.1,hsrc.2,hmoved.life,hnode]
      refine ⟨le_refl _,fun _ => ?_⟩
      rcases hcalls with hcalls | hrun'
      · rw [hcalls,h.idle i] at hc
        exact absurd hc List.not_mem_nil
      · exact hrun'
  · refine ⟨h.idle,failed_each hk h.life (fun hold => ?_)⟩
    cases rpc <;> exact hold
  · refine ⟨?_,?_⟩
    · exact crashed_each (P := fun _ s => s.node.calls = []) rfl (fun j _ => h.idle j)
    · intro rpc hrpc
      obtain ⟨hle,heq⟩ := h.life rpc hrpc
      by_cases hj : rpc.src = i
      · -- the calls of the old process
        rw [hj] at hle
        simp only [crashed,raft,hj,Function.update_self,Server.boot]
        exact ⟨by omega,fun hl => by omega⟩
      · simpa [crashed,raft,hj] using ⟨hle,heq⟩
  · refine ⟨fun j => ?_,?_⟩
    · obtain ⟨-,-,hcalls,-⟩ := hq.node j
      rw [hcalls]
      exact h.idle j
    · intro rpc hrpc
      rw [hq.net] at hrpc
      obtain ⟨hr,-⟩ := hq.node rpc.src
      rw [raft,hr,hq.life]
      exact h.life rpc hrpc

/-- A process that does not run can only start to: no answer waits for it, and it leaves
itself as it is when it gets a request. -/
theorem Callers.move_idle (h : Callers c) {i : CString} {e : Event} {n : Node} {net : List Rpc}
    (hrun : (c.raft i).running = false) (hm : c.Move i e n net) :
    n = (c.servers i).node ∨ ∃ r, e = .run i r ∧ n = (c.servers i).node.run r := by
  have hno : (c.servers i).node.raft.running = false := hrun
  have hcaller : ∀ rpc ∈ c.net, rpc.src = i → ¬rpc.life = (c.servers i).life := by
    rintro rpc hrpc rfl hl
    exact absurd (hrun.symm.trans ((h.life rpc hrpc).2 hl)) Bool.false_ne_true
  cases hm with
  | run r _ => exact .inr ⟨r,rfl,rfl⟩
  | timer r => exact .inl (by simp [Node.onTimer,hno])
  | doLog cmd => exact .inl (by simp [Node.doLog,hno])
  | putLog request _ => exact .inl (by simp [Node.doLog,hno])
  | voteCall k r src life request response _ _ =>
    exact .inl (by simp [Node.onRequestVoteRequest,hno])
  | appendCall k r src life request isHeartbeat _ _ =>
    exact .inl (by simp [Node.onAppendEntriesRequest,hno])
  | voteReply k dst request response hk =>
    exact absurd rfl (hcaller _ (List.mem_of_getElem? hk) rfl)
  | appendReply k dst request isHeartbeat response hk =>
    exact absurd rfl (hcaller _ (List.mem_of_getElem? hk) rfl)

end Cluster
end SRaftMuduo
