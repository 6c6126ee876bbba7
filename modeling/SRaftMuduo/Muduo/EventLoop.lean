import SRaftMuduo.Framework.Machine
import SRaftMuduo.Framework.Fifo
import SRaftMuduo.Math.Words
import Mathlib.Logic.Function.Basic

namespace SRaftMuduo

/-- Where the loop thread stands in `loop` and `DoPendingFunctors`. -/
inductive Phase
  | head
  | poll
  | handle
  | swapped
  | call
  | stopped
  deriving DecidableEq

/-- Where another thread stands in `QueueInLoop` or `quit`. -/
inductive Caller
  | idle
  | pushed
  | quitting
  deriving DecidableEq

/-- The largest count of an eventfd. -/
def eventfdMax : Nat := 2^64-2

/-- `functors` are the values kept in `pendingFunctors_`; `queued` and `ran` record what
was pushed and what was called. -/
structure EventLoop (F T : Type*) where
  phase : Phase
  quit : Bool
  callingPendingFunctors : Bool
  pendingFunctors : List F
  vec : List F
  wakeupFd : Nat
  caller : T → Caller
  loopPushed : Bool
  queued : List F
  ran : List F

/-- A step of another thread `t` or of the loop thread. -/
inductive LoopEvent (F T : Type*)
  | push (t : T) (f : F)
  | quit (t : T)
  | wakeup (t : T)
  | test
  | wake
  | handleRead
  | loopPush (f : F)
  | loopWakeup
  | loopQuit
  | swap
  | setCalling
  | next
  | done

namespace EventLoop

variable {F T : Type*}

def start : EventLoop F T :=
  ⟨.head,false,false,[],[],0,fun _ => .idle,false,[],[]⟩

/-- `Wakeup`: a write that would take the count over its largest value fails. -/
def Wakeup (s : EventLoop F T) : EventLoop F T :=
  {s with wakeupFd := if s.wakeupFd < eventfdMax then s.wakeupFd+1 else s.wakeupFd}

/-- The locked part of `QueueInLoop`. -/
def enqueue (s : EventLoop F T) (f : F) : EventLoop F T :=
  {s with pendingFunctors := s.pendingFunctors++[f], queued := s.queued++[f]}

/-- The loop thread runs code of a channel handler or of a functor. -/
def inCallback (s : EventLoop F T) : Bool := s.phase = .handle || s.phase = .call

/-- A step of the loop thread outside `QueueInLoop`. -/
def advance (s : EventLoop F T) : LoopEvent F T → Option (EventLoop F T)
  | .test =>
    if s.phase = .head then some {s with phase := if s.quit then .stopped else .poll} else none
  | .wake => if s.phase = .poll then some {s with phase := .handle} else none
  | .handleRead => if s.phase = .handle then some {s with wakeupFd := 0} else none
  | .loopPush f =>
    if s.inCallback then some {s.enqueue f with loopPushed := true} else none
  | .loopQuit => if s.inCallback then some {s with quit := true} else none
  | .swap =>
    if s.phase = .handle then
      some {s with phase := .swapped, vec := s.pendingFunctors, pendingFunctors := []}
    else none
  | .setCalling =>
    if s.phase = .swapped then some {s with phase := .call, callingPendingFunctors := true}
    else none
  | .next =>
    match s.vec with
    | f::fs => if s.phase = .call then some {s with vec := fs, ran := s.ran++[f]} else none
    | [] => none
  | .done =>
    if s.phase = .call ∧ s.vec.isEmpty then
      some {s with phase := .head, callingPendingFunctors := false}
    else none
  | _ => none

/-- A wakeup is written or owed. -/
def Awake (s : EventLoop F T) : Prop :=
  s.pendingFunctors ≠ [] → s.wakeupFd ≠ 0 ∨ (∃ t, s.caller t = .pushed) ∨ s.loopPushed = true

/-- What holds between any two steps: the queue `q` waits in `vec` and then in
`pendingFunctors_`, and outside the handlers a waiting functor has its wakeup. -/
structure Live (s : EventLoop F T) (q : Fifo F) : Prop where
  queued : s.queued = q.entered
  ran : s.ran = q.left
  waiting : s.vec++s.pendingFunctors = q.waiting
  vec : s.phase ≠ .swapped → s.phase ≠ .call → s.vec = []
  calling : s.callingPendingFunctors = true ↔ s.phase = .call
  callback : s.loopPushed = true → s.inCallback = true
  awake : s.phase ≠ .handle → s.Awake

theorem Live.start : Live (start : EventLoop F T) (.empty F) where
  queued := rfl
  ran := rfl
  waiting := rfl
  vec _ _ := rfl
  calling := by simp [EventLoop.start]
  callback h := by simp [EventLoop.start] at h
  awake _ h := absurd rfl h

theorem Wakeup_ne_zero (s : EventLoop F T) : s.Wakeup.wakeupFd ≠ 0 := by
  unfold Wakeup eventfdMax
  dsimp only
  split_ifs <;> omega

variable {s t : EventLoop F T} {q : Fifo F} {e : LoopEvent F T}

/-- The loop thread pushes in a handler, where the swap follows, or in a functor, where a
wakeup follows. -/
theorem Live.loopPush (h : Live s q) (hc : s.inCallback = true) (f : F) :
    Live {s.enqueue f with loopPushed := true} (q.push [f]) where
  queued := congrArg (·++[f]) h.queued
  ran := h.ran
  waiting := by
    show s.vec++(s.pendingFunctors++[f]) = q.waiting++[f]
    rw [← List.append_assoc,h.waiting]
  vec := h.vec
  calling := h.calling
  callback _ := hc
  awake _ _ := .inr (.inr rfl)

theorem Live.loopWakeup (h : Live s q) (hl : s.loopPushed = true) :
    Live {(if s.callingPendingFunctors then s.Wakeup else s) with loopPushed := false} q := by
  cases hcall : s.callingPendingFunctors with
  | true =>
    exact ⟨h.queued,h.ran,h.waiting,h.vec,h.calling,nofun,fun _ _ => .inl s.Wakeup_ne_zero⟩
  | false =>
    have hphase : s.phase = .handle := by
      have hc := h.callback hl
      have hn : ¬s.phase = .call := fun hp => by simp [h.calling.mpr hp] at hcall
      simpa [inCallback,hn] using hc
    exact ⟨h.queued,h.ran,h.waiting,h.vec,h.calling,nofun,fun hp => absurd hphase hp⟩

theorem Live.not_calling (h : Live s q) (hp : s.phase ≠ .call) :
    s.callingPendingFunctors = false := by
  simpa using h.calling.not.mpr hp

/-- From the head of the loop to `Poll`, or out of the loop. -/
theorem Live.test (h : Live s q) (hl : s.loopPushed = false) (hp : s.phase = .head) :
    Live {s with phase := if s.quit then .stopped else .poll} q where
  queued := h.queued
  ran := h.ran
  waiting := h.waiting
  vec _ _ := h.vec (by simp [hp]) (by simp [hp])
  calling := by
    have hcall := h.not_calling (by simp [hp])
    cases s.quit <;> simp [hcall]
  callback hpushed := absurd hpushed (by simp [hl])
  awake _ := h.awake (by simp [hp])

theorem Live.wake (h : Live s q) (hl : s.loopPushed = false) (hp : s.phase = .poll) :
    Live {s with phase := .handle} q where
  queued := h.queued
  ran := h.ran
  waiting := h.waiting
  vec _ _ := h.vec (by simp [hp]) (by simp [hp])
  calling := by
    have hcall := h.not_calling (by simp [hp])
    simp [hcall]
  callback hpushed := absurd hpushed (by simp [hl])
  awake hn := absurd rfl hn

/-- The swap takes everything that waits. -/
theorem Live.swap (h : Live s q) (hl : s.loopPushed = false) (hp : s.phase = .handle) :
    Live {s with phase := .swapped, vec := s.pendingFunctors, pendingFunctors := []} q where
  queued := h.queued
  ran := h.ran
  waiting := by
    have hvec : s.vec = [] := h.vec (by simp [hp]) (by simp [hp])
    rw [← h.waiting,hvec]
    exact List.append_nil _
  vec hn := absurd rfl hn
  calling := by
    have hcall := h.not_calling (by simp [hp])
    simp [hcall]
  callback hpushed := absurd hpushed (by simp [hl])
  awake _ hn := absurd rfl hn

theorem Live.setCalling (h : Live s q) (hl : s.loopPushed = false) (hp : s.phase = .swapped) :
    Live {s with phase := .call, callingPendingFunctors := true} q where
  queued := h.queued
  ran := h.ran
  waiting := h.waiting
  vec _ hn := absurd rfl hn
  calling := by simp
  callback hpushed := absurd hpushed (by simp [hl])
  awake _ := h.awake (by simp [hp])

/-- The functor that is called leaves the queue. -/
theorem Live.next (h : Live s q) (hl : s.loopPushed = false) (hp : s.phase = .call) {f : F}
    {fs : List F} (hv : s.vec = f::fs) :
    Live {s with vec := fs, ran := s.ran++[f]} (q.pop 1) := by
  have hw : f::(fs++s.pendingFunctors) = q.waiting := by
    rw [← h.waiting,hv]
    rfl
  refine ⟨h.queued,?ran,?waiting,fun _ hn => absurd hp hn,h.calling,
    fun hpushed => absurd hpushed (by simp [hl]),fun _ => h.awake (by simp [hp])⟩
  case ran =>
    show s.ran++[f] = q.left++q.waiting.take 1
    rw [h.ran,← hw]
    rfl
  case waiting =>
    show fs++s.pendingFunctors = q.waiting.drop 1
    rw [← hw]
    rfl

theorem Live.done (h : Live s q) (hl : s.loopPushed = false) (hp : s.phase = .call)
    (hv : s.vec = []) : Live {s with phase := .head, callingPendingFunctors := false} q where
  queued := h.queued
  ran := h.ran
  waiting := h.waiting
  vec _ _ := hv
  calling := by simp
  callback hpushed := absurd hpushed (by simp [hl])
  awake _ := h.awake (by simp [hp])

/-- The steps of the loop thread between its pushes. -/
theorem Live.advance (h : Live s q) (hl : s.loopPushed = false)
    (ht : s.advance e = some t) : ∃ q, Live t q := by
  cases e with
  | push | quit | wakeup | loopWakeup => cases ht
  | test =>
    obtain ⟨hp,ht⟩ := Option.ite_none_right_eq_some.mp ht
    obtain rfl := Option.some.inj ht
    exact ⟨q,h.test hl hp⟩
  | wake =>
    obtain ⟨hp,ht⟩ := Option.ite_none_right_eq_some.mp ht
    obtain rfl := Option.some.inj ht
    exact ⟨q,h.wake hl hp⟩
  | handleRead =>
    obtain ⟨hp,ht⟩ := Option.ite_none_right_eq_some.mp ht
    obtain rfl := Option.some.inj ht
    exact ⟨q,h.queued,h.ran,h.waiting,h.vec,h.calling,h.callback,fun hn => absurd hp hn⟩
  | loopPush f =>
    obtain ⟨hc,ht⟩ := Option.ite_none_right_eq_some.mp ht
    obtain rfl := Option.some.inj ht
    exact ⟨_,h.loopPush hc f⟩
  | loopQuit =>
    obtain ⟨hc,ht⟩ := Option.ite_none_right_eq_some.mp ht
    obtain rfl := Option.some.inj ht
    exact ⟨q,h.queued,h.ran,h.waiting,h.vec,h.calling,h.callback,h.awake⟩
  | swap =>
    obtain ⟨hp,ht⟩ := Option.ite_none_right_eq_some.mp ht
    obtain rfl := Option.some.inj ht
    exact ⟨q,h.swap hl hp⟩
  | setCalling =>
    obtain ⟨hp,ht⟩ := Option.ite_none_right_eq_some.mp ht
    obtain rfl := Option.some.inj ht
    exact ⟨q,h.setCalling hl hp⟩
  | next =>
    rw [EventLoop.advance] at ht
    cases hv : s.vec with
    | nil =>
      rw [hv] at ht
      cases ht
    | cons f fs =>
      rw [hv] at ht
      obtain ⟨hp,ht⟩ := Option.ite_none_right_eq_some.mp ht
      obtain rfl := Option.some.inj ht
      exact ⟨q.pop 1,h.next hl hp hv⟩
  | done =>
    obtain ⟨hp,ht⟩ := Option.ite_none_right_eq_some.mp ht
    obtain rfl := Option.some.inj ht
    exact ⟨q,h.done hl hp.1 (List.isEmpty_iff.mp hp.2)⟩

variable [DecidableEq T]

def setCaller (s : EventLoop F T) (t : T) (c : Caller) : EventLoop F T :=
  {s with caller := Function.update s.caller t c}

/-- One step of the interleaving. Between the push of the loop thread and its test of
`callingPendingFunctors_` only other threads move. -/
def step (s : EventLoop F T) : LoopEvent F T → Option (EventLoop F T)
  | .push t f =>
    if s.caller t = .idle then some ((s.enqueue f).setCaller t .pushed) else none
  | .quit t =>
    if s.caller t = .idle then some ({s with quit := true}.setCaller t .quitting) else none
  | .wakeup t =>
    if s.caller t = .idle then none else some (s.Wakeup.setCaller t .idle)
  | .loopWakeup =>
    if s.loopPushed then
      let s' := if s.callingPendingFunctors then s.Wakeup else s
      some {s' with loopPushed := false}
    else none
  | e => if s.loopPushed then none else s.advance e

def machine (F T : Type*) [DecidableEq T] : Machine (EventLoop F T) (LoopEvent F T) :=
  ⟨fun s => s = start,step⟩

theorem Live.push (h : Live s q) (u : T) (f : F) :
    Live ((s.enqueue f).setCaller u .pushed) (q.push [f]) where
  queued := congrArg (·++[f]) h.queued
  ran := h.ran
  waiting := by
    show s.vec++(s.pendingFunctors++[f]) = q.waiting++[f]
    rw [← List.append_assoc,h.waiting]
  vec := h.vec
  calling := h.calling
  callback := h.callback
  awake _ _ := .inr (.inl ⟨u,Function.update_self ..⟩)

theorem Live.wakeup (h : Live s q) (u : T) : Live (s.Wakeup.setCaller u .idle) q where
  queued := h.queued
  ran := h.ran
  waiting := h.waiting
  vec := h.vec
  calling := h.calling
  callback := h.callback
  awake _ _ := .inl s.Wakeup_ne_zero

theorem Live.quit (h : Live s q) {u : T} (hu : s.caller u = .idle) :
    Live ({s with quit := true}.setCaller u .quitting) q where
  queued := h.queued
  ran := h.ran
  waiting := h.waiting
  vec := h.vec
  calling := h.calling
  callback := h.callback
  awake hp hne := by
    obtain hw | ⟨v,hv⟩ | hl := h.awake hp hne
    · exact .inl hw
    · have huv : v ≠ u := by
        intro he
        rw [he,hu] at hv
        cases hv
      exact .inr (.inl ⟨v,(Function.update_of_ne huv ..).trans hv⟩)
    · exact .inr (.inr hl)

theorem Live.step (h : Live s q) (ht : s.step e = some t) : ∃ q, Live t q := by
  cases e with
  | push u f =>
    rw [EventLoop.step] at ht
    obtain ⟨-,ht⟩ := Option.ite_none_right_eq_some.mp ht
    obtain rfl := Option.some.inj ht
    exact ⟨_,h.push u f⟩
  | quit u =>
    rw [EventLoop.step] at ht
    obtain ⟨hu,ht⟩ := Option.ite_none_right_eq_some.mp ht
    obtain rfl := Option.some.inj ht
    exact ⟨q,h.quit hu⟩
  | wakeup u =>
    rw [EventLoop.step] at ht
    obtain ⟨-,ht⟩ := Option.ite_none_left_eq_some.mp ht
    obtain rfl := Option.some.inj ht
    exact ⟨q,h.wakeup u⟩
  | loopWakeup =>
    rw [EventLoop.step] at ht
    obtain ⟨hl,ht⟩ := Option.ite_none_right_eq_some.mp ht
    obtain rfl := Option.some.inj ht
    exact ⟨q,h.loopWakeup hl⟩
  | test | wake | handleRead | loopPush | loopQuit | swap | setCalling | next | done =>
    simp only [EventLoop.step] at ht
    obtain ⟨hl,ht⟩ := Option.ite_none_left_eq_some.mp ht
    exact h.advance (by simpa using hl) ht

theorem Live.path (hp : (machine F T).Path Machine.always .start s) : ∃ q, Live s q := by
  refine hp.invariant (I := fun s => ∃ q, Live s q) ?_ ⟨_,.start⟩
  intro s e t hs _ ht
  obtain ⟨q,hq⟩ := hs
  exact hq.step ht

end EventLoop

/-- The functors called are the first of those pushed, each once and in their order, the
rest still waits, and a loop thread in `Poll` has the wakeup of a waiting functor written or
about to be written by the thread that pushed. -/
theorem functor_queue {F T : Type*} [DecidableEq T] {s : EventLoop F T}
    (hp : (EventLoop.machine F T).Path Machine.always .start s) :
    s.ran++(s.vec++s.pendingFunctors) = s.queued ∧
    (s.phase = .poll → s.pendingFunctors ≠ [] →
      s.wakeupFd ≠ 0 ∨ ∃ t, s.caller t = .pushed) := by
  obtain ⟨q,hq⟩ := EventLoop.Live.path hp
  constructor
  · rw [hq.ran,hq.waiting,hq.queued,q.balanced]
  · intro hpoll hne
    obtain hw | hc | hl := hq.awake (by simp [hpoll]) hne
    · exact .inl hw
    · exact .inr hc
    · have hcb := hq.callback hl
      simp [EventLoop.inCallback,hpoll] at hcb

theorem functor_queue_two : ∃ s : EventLoop Nat Bool, s.phase = .poll ∧
    s.ran = [0,1] ∧ s.pendingFunctors = [2] ∧ s.wakeupFd ≠ 0 := by
  obtain ⟨s,hp,ht⟩ := Machine.exec_any (EventLoop.machine Nat Bool) Machine.always .start
    [.test,.push true 0,.wake,.push false 1,.wakeup true,.handleRead,.swap,.setCalling,.next,
      .loopPush 2,.loopWakeup,.next,.done,.wakeup false,.test]
    (fun s => s.phase = .poll ∧ s.ran = [0,1] ∧ s.pendingFunctors = [2] ∧
      s.caller true = .idle ∧ s.caller false = .idle) (by decide +kernel)
  have hs : s.phase = .poll ∧ s.ran = [0,1] ∧ s.pendingFunctors = [2] ∧
      s.caller true = .idle ∧ s.caller false = .idle := by simpa using ht
  obtain ⟨hpoll,hran,hpend,ha,hb⟩ := hs
  refine ⟨s,hpoll,hran,hpend,?_⟩
  obtain hw | ⟨t,hc⟩ := (functor_queue hp).2 hpoll (by simp [hpend])
  · exact hw
  · cases t
    · rw [hb] at hc
      cases hc
    · rw [ha] at hc
      cases hc

end SRaftMuduo
