import SRaftMuduo.Cluster.System
import SRaftMuduo.Raft.Effects

namespace SRaftMuduo

/-- A `putAppend` that returns at `server`. -/
structure PutAnswer where
  server : CString
  request : PutAppendRequest
  response : PutAppendResponse
  deriving DecidableEq

namespace PutAnswer

/-- The client is told that its write was taken. -/
def Ok (a : PutAnswer) : Prop := a.response.wrongLeader = false ∧ a.response.err = errNone

/-- The log has grown by one entry, with the command of the request. -/
def Appended (a : PutAnswer) (before after : List LogEntry) : Prop :=
  ∃ entry : LogEntry, entry.data = a.request.command ∧ after = before++[entry]

/-- The response says what became of the write, and a write that failed left the log alone. -/
structure Truthful (a : PutAnswer) (before after : List LogEntry) : Prop where
  ok : a.Ok ↔ a.Appended before after
  unchanged : ¬a.Ok → after = before

variable {a : PutAnswer} {before after : List LogEntry}

theorem Appended.ne (h : a.Appended before after) : after ≠ before := by
  obtain ⟨entry,-,rfl⟩ := h
  simp

theorem Truthful.appended (ho : a.Ok) (h : a.Appended before after) :
    a.Truthful before after :=
  ⟨⟨fun _ => h,fun _ => ho⟩,fun hno => absurd ho hno⟩

theorem Truthful.refused (ho : ¬a.Ok) (log : List LogEntry) : a.Truthful log log :=
  ⟨⟨fun h => absurd h ho,fun h => absurd rfl h.ne⟩,fun _ => rfl⟩

end PutAnswer

namespace Cluster

/-- What `putAppend` answers in a step of its own: the check refuses, or `DoLog` has
returned, whatever its result. -/
def answer (c : Cluster) : Event → Option PutAnswer
  | .putCheck i request =>
    if (c.raft i).state = .leader then none else some ⟨i,request,⟨true,errWrongLeader⟩⟩
  | .putLog i =>
    (c.servers i).pending.bind fun request =>
      if ((c.servers i).node.doLog request.command).1.stopped then none
      else some ⟨i,request,⟨false,errNone⟩⟩
  | _ => none

/-- The node that has passed the check is still a running leader when `DoLog` looks. -/
def stillLeads (c : Cluster) : Event → Prop
  | .putLog i => (c.raft i).running = true ∧ (c.raft i).state = .leader
  | _ => True

variable {cfg : Config} {c c' : Cluster} {i : CString} {a : PutAnswer}

theorem putCheck_truthful {request : PutAppendRequest}
    (ha : c.answer (.putCheck i request) = some a)
    (hs : c.step cfg (.putCheck i request) = some c') :
    a.Truthful (c.raft a.server).logs (c'.raft a.server).logs := by
  obtain ⟨hl,ha⟩ := Option.ite_none_left_eq_some.mp ha
  obtain rfl := Option.some.inj ha
  obtain ⟨-,hs⟩ := Option.ite_none_right_eq_some.mp hs
  obtain rfl := Option.some.inj hs
  rw [checkPut,if_neg hl]
  have hrefused : ¬PutAnswer.Ok ⟨i,request,⟨true,errWrongLeader⟩⟩ := fun ho => nomatch ho.1
  exact .refused hrefused _

/-- The log of the node after `DoLog`. -/
theorem logPut_logs (c : Cluster) (i : CString) (request : PutAppendRequest) :
    ((c.logPut i request).raft i).logs =
      ((c.servers i).node.doLog request.command).1.raft.logs := by
  unfold logPut raft
  dsimp only
  split_ifs <;> simp [put]

theorem putLog_truthful_iff (ha : c.answer (.putLog i) = some a)
    (hs : c.step cfg (.putLog i) = some c') :
    a.Truthful (c.raft a.server).logs (c'.raft a.server).logs ↔
      (c.raft i).running = true ∧ (c.raft i).state = .leader := by
  obtain ⟨request,hp,ha⟩ := Option.bind_eq_some_iff.mp ha
  obtain ⟨hreturns,ha⟩ := Option.ite_none_left_eq_some.mp ha
  obtain rfl := Option.some.inj ha
  obtain ⟨-,hs⟩ := Option.ite_none_right_eq_some.mp hs
  obtain ⟨request',hp',rfl⟩ := Option.map_eq_some_iff.mp hs
  obtain rfl := Option.some.inj (hp.symm.trans hp')
  dsimp only
  rw [logPut_logs]
  have hok : PutAnswer.Ok ⟨i,request,⟨false,errNone⟩⟩ := ⟨rfl,rfl⟩
  cases Node.doLog_cases request.command (c.servers i).node with
  | inl h =>
    -- `DoLog` returns -1 or -2, and nobody looks
    obtain ⟨hno,he⟩ := h
    rw [he]
    constructor
    · intro ht
      exact absurd rfl (ht.ok.mp hok).ne
    · exact fun hl => absurd hl hno
  | inr h =>
    cases h with
    | inl h =>
      rw [h.2] at hreturns
      exact absurd rfl hreturns
    | inr h =>
      obtain ⟨hrun,hlead,-,he⟩ := h
      obtain ⟨ci,la,hr⟩ := Node.logEntry_raft request.command (c.servers i).node
      rw [he,hr]
      exact ⟨fun _ => ⟨hrun,hlead⟩,fun _ => .appended hok ⟨_,rfl,rfl⟩⟩

/-- A call of `putAppend` that returns has answered what happened if and only if it was
refused by the check or its node was still the leader when `DoLog` looked. -/
theorem putAppend_truthful_iff {e : Event} (ha : c.answer e = some a)
    (hs : c.step cfg e = some c') :
    a.Truthful (c.raft a.server).logs (c'.raft a.server).logs ↔ c.stillLeads e := by
  cases e with
  | putCheck i request => exact ⟨fun _ => trivial,fun _ => putCheck_truthful ha hs⟩
  | putLog i => exact putLog_truthful_iff ha hs
  | run | timer | doLog | deliver | respond | fail | crash | receive => cases ha

theorem putAppend_truthful_put : ∃ c c' : Cluster,
    (machine .two).Path Machine.always (.initial .two) c ∧
    c.step .two (.putLog ['a']) = some c' ∧
    PutAnswer.Truthful ⟨['a'],⟨['k'],['v'],opPut⟩,⟨false,errNone⟩⟩
      (c.raft ['a']).logs (c'.raft ['a']).logs := by
  obtain ⟨c,hp,hc⟩ := Machine.exec_any (machine .two) Machine.always (.initial .two)
    [.run ['a'] (.now 0),.run ['b'] (.now 0),.timer ['a'] (.now 451),.deliver 0 (.now 451),
      .respond 0,.putCheck ['a'] ⟨['k'],['v'],opPut⟩]
    (fun c => c.answer (.putLog ['a']) = some ⟨['a'],⟨['k'],['v'],opPut⟩,⟨false,errNone⟩⟩ &&
      (c.step .two (.putLog ['a'])).isSome &&
      ((c.raft ['a']).running && (c.raft ['a']).state = .leader)) (by decide +kernel)
  simp only [Bool.and_eq_true,decide_eq_true_eq] at hc
  obtain ⟨⟨ha,hsome⟩,hlead⟩ := hc
  obtain ⟨c',hs⟩ := Option.isSome_iff_exists.mp hsome
  exact ⟨c,c',hp,hs,(putAppend_truthful_iff ha hs).mpr hlead⟩

/-- Between the check and `DoLog` the leader grants its vote to the other node. -/
theorem putAppend_untruthful : ∃ c c' : Cluster,
    (machine .two).Path Machine.always (.initial .two) c ∧
    c.answer (.putLog ['a']) = some ⟨['a'],⟨['k'],['v'],opPut⟩,⟨false,errNone⟩⟩ ∧
    c.step .two (.putLog ['a']) = some c' ∧ (c'.raft ['a']).logs = (c.raft ['a']).logs := by
  obtain ⟨c,hp,hc⟩ := Machine.exec_any (machine .two) Machine.always (.initial .two)
    [.run ['a'] (.now 0),.run ['b'] (.now 0),.timer ['a'] (.now 451),.deliver 0 (.now 451),
      .respond 0,.putCheck ['a'] ⟨['k'],['v'],opPut⟩,.timer ['b'] (.now 451),
      .deliver 0 (.now 451)]
    (fun c => c.answer (.putLog ['a']) = some ⟨['a'],⟨['k'],['v'],opPut⟩,⟨false,errNone⟩⟩ &&
      (c.step .two (.putLog ['a'])).any fun c' => (c'.raft ['a']).logs = (c.raft ['a']).logs)
    (by decide +kernel)
  simp only [Bool.and_eq_true,decide_eq_true_eq] at hc
  obtain ⟨c',hs,hlogs⟩ := (Option.any_eq_true _ _).mp hc.2
  exact ⟨c,c',hp,hc.1,hs,of_decide_eq_true hlogs⟩

end Cluster

end SRaftMuduo
