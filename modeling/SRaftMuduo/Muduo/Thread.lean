import SRaftMuduo.Muduo.LoopThread

namespace SRaftMuduo

/-- Where the thread stands in the function that `Thread::start` gives it: before `tid_` is set,
before `sem_post`, in `func_`, or back. -/
inductive ThreadBody
  | none
  | created
  | named (id : Nat)
  | running (id : Nat)
  | finished (id : Nat)
  deriving DecidableEq

/-- The thread has set `tid_` to the given number. -/
def ThreadBody.id : ThreadBody → Option Nat
  | .none | .created => Option.none
  | .named id | .running id | .finished id => some id

/-- The thread has posted the semaphore of `start`. -/
def ThreadBody.posted : ThreadBody → Bool
  | .running _ | .finished _ => true
  | _ => false

/-- Where `~Thread` stands: at its `sem_wait`, with the value of its own semaphore, or back. -/
inductive Destructor
  | none
  | waiting (sem : Nat)
  | returned
  deriving DecidableEq

/-- A `Thread`; `sem` is the semaphore of `start`, and `startReturned` says that `start` is past
its `sem_wait`. -/
structure Thread where
  started : Bool
  joined : Bool
  tid : Nat
  body : ThreadBody
  sem : Nat
  startReturned : Bool
  destructor : Destructor

inductive ThreadCall
  | start
  | setTid (id : Nat)
  | post
  | startWait
  | leave
  | join
  | destroy (own : Nat)
  | destroyWait

def ThreadCall.isJoin : ThreadCall → Bool
  | .join => true
  | _ => false

def ThreadCall.inDestructor : ThreadCall → Bool
  | .destroy _ | .destroyWait => true
  | _ => false

namespace Thread

def new : Thread := ⟨false,false,0,.none,0,false,.none⟩

def step (s : Thread) : ThreadCall → Option Thread
  | .start => if s.started then none else some {s with started := true, body := .created}
  | .setTid id =>
    if s.body = .created then some {s with tid := id, body := .named id} else none
  | .post =>
    match s.body with
    | .named id => some {s with body := .running id, sem := s.sem+1}
    | _ => none
  | .startWait =>
    if 0 < s.sem then some {s with sem := s.sem-1, startReturned := true} else none
  | .leave =>
    match s.body with
    | .running id => some {s with body := .finished id}
    | _ => none
  | .join =>
    match s.body with
    | .finished _ => some {s with joined := true}
    | _ => none
  | .destroy own =>
    if s.destructor = .none then
      -- only a thread that is detached here posts the semaphore
      if s.started && !s.joined then some {s with tid := own, destructor := .waiting 1}
      else some {s with destructor := .waiting 0}
    else none
  | .destroyWait =>
    match s.destructor with
    | .waiting (_+1) => some {s with destructor := .returned}
    | _ => none

end Thread

/-- An owner and its loop thread with the member `thread_`, which is destroyed after the body of
the destructor. -/
structure OwnedThread (F : Type*) where
  inner : EventLoopThread F
  thread : Thread

inductive OwnedEvent (F : Type*)
  | inner (e : ThreadEvent F)
  | setTid (id : Nat)
  | post
  | startWait
  | loopQuit
  | destroyThread (own : Nat)
  | destroyWait

/-- What happens to `thread_` in a step of the owner or of the thread. -/
def ThreadEvent.call {F : Type*} : ThreadEvent F → Option ThreadCall
  | .start => some .start
  | .leave => some .leave
  | .join => some .join
  | _ => none

namespace OwnedThread

variable {F : Type*}

def new : OwnedThread F := ⟨.new,.new⟩

/-- `startloop` goes on when `start` has returned, and the thread is in `func_` after its post;
the loop is gone when the thread has left `ThreadFunc`. -/
def ready (s : OwnedThread F) : ThreadEvent F → Prop
  | .test => s.thread.startReturned = true
  | .publish => s.thread.body.posted = true
  | .quit | .wakeup => s.inner.worker ≠ .finished
  | _ => True

instance (s : OwnedThread F) (e : ThreadEvent F) : Decidable (s.ready e) := by
  unfold ready
  split <;> infer_instance

def onThread (s : OwnedThread F) (call : ThreadCall) : Option (OwnedThread F) :=
  (s.thread.step call).map fun thread => {s with thread := thread}

def step (s : OwnedThread F) : OwnedEvent F → Option (OwnedThread F)
  | .inner e =>
    if s.ready e then
      (s.inner.step e).bind fun inner =>
        match e.call with
        | none => some {s with inner := inner}
        | some call => ({s with inner := inner} : OwnedThread F).onThread call
    else none
  | .setTid id => s.onThread (.setTid id)
  | .post => s.onThread .post
  | .startWait => s.onThread .startWait
  | .loopQuit =>
    if s.inner.worker = .looping ∧ s.inner.entering = false then
      (s.inner.loop.step .loopQuit).map fun loop => {s with inner := {s.inner with loop := loop}}
    else none
  | .destroyThread own => if s.inner.owner = .destroyed then s.onThread (.destroy own) else none
  | .destroyWait => s.onThread .destroyWait

def machine (F : Type*) : Machine (OwnedThread F) (OwnedEvent F) :=
  ⟨fun s => s = new,step⟩

end OwnedThread

namespace Thread

variable {s t : Thread} {call : ThreadCall}

/-- What the two semaphores say, and whose number `tid_` is before the destructor. -/
structure Sound (s : Thread) : Prop where
  fresh : s.started = false → s.body = .none
  sem : 0 < s.sem → s.body.posted = true
  startReturned : s.startReturned = true → s.body.posted = true
  tid : s.destructor = .none → ∀ id, s.body.id = some id → s.tid = id
  waiting : ∀ sem, s.destructor = .waiting (sem+1) → s.joined = false
  returned : s.destructor = .returned → s.joined = false

theorem Sound.new : Sound new where
  fresh _ := rfl
  sem h := nomatch h
  startReturned h := nomatch h
  tid _ _ h := nomatch h
  waiting _ h := nomatch h
  returned h := nomatch h

/-- The thread moves on in its function. -/
theorem Sound.body (h : Sound s) {body : ThreadBody} (hbody : s.body ≠ .none)
    (hid : body.id = s.body.id) (hposted : body.posted = true) (sem : Nat) :
    Sound {s with body := body, sem := sem} where
  fresh hs := absurd (h.fresh hs) hbody
  sem _ := hposted
  startReturned _ := hposted
  tid hd id hi := h.tid hd id (hid ▸ hi)
  waiting := h.waiting
  returned := h.returned

theorem Sound.start (h : Sound s) (hs : s.started = false) :
    Sound {s with started := true, body := .created} := by
  have hnone := h.fresh hs
  refine ⟨nofun,fun hsem => ?_,fun hret => ?_,nofun,h.waiting,h.returned⟩
  · have hposted := h.sem hsem
    rw [hnone] at hposted
    cases hposted
  · have hposted := h.startReturned hret
    rw [hnone] at hposted
    cases hposted

theorem Sound.setTid (h : Sound s) (hb : s.body = .created) (id : Nat) :
    Sound {s with tid := id, body := .named id} := by
  have hunposted : s.body.posted = true → False := by
    rw [hb]
    exact nofun
  refine ⟨fun hs => ?_,fun hsem => (hunposted (h.sem hsem)).elim,
    fun hret => (hunposted (h.startReturned hret)).elim,fun _ _ hi => Option.some.inj hi,
    h.waiting,h.returned⟩
  have hnone := h.fresh hs
  rw [hb] at hnone
  cases hnone

/-- The destructor posts its semaphore only for a thread that was not joined. -/
theorem Sound.destroy (h : Sound s) (own : Nat) :
    Sound (if s.started && !s.joined then {s with tid := own, destructor := .waiting 1}
      else {s with destructor := .waiting 0}) := by
  split_ifs with hdetach
  · have hunjoined : s.joined = false := by simpa using (Bool.and_eq_true_iff.mp hdetach).2
    exact ⟨h.fresh,h.sem,h.startReturned,nofun,fun _ _ => hunjoined,nofun⟩
  · exact ⟨h.fresh,h.sem,h.startReturned,nofun,nofun,nofun⟩

/-- A thread is joined before its destructor. -/
theorem Sound.step (h : Sound s) (hjoin : call = .join → s.destructor = .none)
    (ht : s.step call = some t) : Sound t := by
  cases call with
  | start =>
    obtain ⟨hs,ht⟩ := Option.ite_none_left_eq_some.mp ht
    obtain rfl := Option.some.inj ht
    exact h.start ((Bool.not_eq_true _).mp hs)
  | setTid id =>
    obtain ⟨hb,ht⟩ := Option.ite_none_right_eq_some.mp ht
    obtain rfl := Option.some.inj ht
    exact h.setTid hb id
  | post =>
    rw [Thread.step] at ht
    split at ht
    · next id hb =>
      obtain rfl := Option.some.inj ht
      exact h.body (by rw [hb]; nofun) (by rw [hb]; rfl) rfl _
    · cases ht
  | startWait =>
    obtain ⟨hs,ht⟩ := Option.ite_none_right_eq_some.mp ht
    obtain rfl := Option.some.inj ht
    have hposted := h.sem hs
    exact ⟨h.fresh,fun _ => hposted,fun _ => hposted,h.tid,h.waiting,h.returned⟩
  | leave =>
    rw [Thread.step] at ht
    split at ht
    · next id hb =>
      obtain rfl := Option.some.inj ht
      exact h.body (by rw [hb]; nofun) (by rw [hb]; rfl) rfl _
    · cases ht
  | join =>
    rw [Thread.step] at ht
    split at ht
    · obtain rfl := Option.some.inj ht
      have hnone := hjoin rfl
      exact ⟨h.fresh,h.sem,h.startReturned,h.tid,fun _ hd => absurd (hnone.symm.trans hd) nofun,
        fun hd => absurd (hnone.symm.trans hd) nofun⟩
    · cases ht
  | destroy own =>
    obtain ⟨-,ht⟩ := Option.ite_none_right_eq_some.mp ht
    have hdestroy := h.destroy own
    split_ifs at ht hdestroy with hdetach
    · obtain rfl := Option.some.inj ht
      exact hdestroy
    · obtain rfl := Option.some.inj ht
      exact hdestroy
  | destroyWait =>
    rw [Thread.step] at ht
    split at ht
    · next sem hd =>
      obtain rfl := Option.some.inj ht
      exact ⟨h.fresh,h.sem,h.startReturned,nofun,nofun,fun _ => h.waiting sem hd⟩
    · cases ht

/-- Only `join` sets `joined_`, and only the destructor goes on with itself. -/
theorem step_frame (ht : s.step call = some t) :
    t.joined = (s.joined || call.isJoin) ∧
      (call.inDestructor = false → t.destructor = s.destructor) := by
  cases call with
  | start =>
    obtain ⟨-,ht⟩ := Option.ite_none_left_eq_some.mp ht
    obtain rfl := Option.some.inj ht
    exact ⟨(Bool.or_false _).symm,fun _ => rfl⟩
  | setTid | startWait =>
    obtain ⟨-,ht⟩ := Option.ite_none_right_eq_some.mp ht
    obtain rfl := Option.some.inj ht
    exact ⟨(Bool.or_false _).symm,fun _ => rfl⟩
  | post | leave =>
    rw [Thread.step] at ht
    split at ht
    · obtain rfl := Option.some.inj ht
      exact ⟨(Bool.or_false _).symm,fun _ => rfl⟩
    · cases ht
  | join =>
    rw [Thread.step] at ht
    split at ht
    · obtain rfl := Option.some.inj ht
      exact ⟨(Bool.or_true _).symm,fun _ => rfl⟩
    · cases ht
  | destroy own =>
    obtain ⟨-,ht⟩ := Option.ite_none_right_eq_some.mp ht
    split_ifs at ht <;> obtain rfl := Option.some.inj ht <;>
      exact ⟨(Bool.or_false _).symm,fun h => nomatch h⟩
  | destroyWait =>
    rw [Thread.step] at ht
    split at ht
    · obtain rfl := Option.some.inj ht
      exact ⟨(Bool.or_false _).symm,fun h => nomatch h⟩
    · cases ht

/-- A joined thread waits in its destructor for a post that nobody makes. -/
theorem step_blocked (hjoined : s.joined = true)
    (hd : s.destructor = .none ∨ s.destructor = .waiting 0) (ht : s.step call = some t) :
    t.joined = true ∧ (t.destructor = .none ∨ t.destructor = .waiting 0) := by
  obtain ⟨hj,hframe⟩ := step_frame ht
  refine ⟨by rw [hj,hjoined,Bool.true_or],?_⟩
  cases call with
  | start | setTid | post | startWait | leave | join =>
    rw [hframe rfl]
    exact hd
  | destroy own =>
    obtain ⟨-,ht⟩ := Option.ite_none_right_eq_some.mp ht
    rw [if_neg (by simp [hjoined])] at ht
    obtain rfl := Option.some.inj ht
    exact .inr rfl
  | destroyWait =>
    rw [Thread.step] at ht
    split at ht
    · next sem hwait =>
      rw [hwait] at hd
      obtain hno | hno := hd <;> cases hno
    · cases ht

end Thread

namespace EventLoopThread

variable {F : Type*} {s t : EventLoopThread F} {e : ThreadEvent F}

/-- `loop_` is set while the thread is in its function, and the body of the destructor ends
only after it. -/
structure Bound (s : EventLoopThread F) : Prop where
  hasLoop : s.hasLoop = true ↔ s.worker.hasPublished = true ∧ s.worker ≠ .finished
  found : s.owner.hasFound = true → s.worker.hasPublished = true
  ended : s.owner = .destroyed → s.worker = .finished

theorem Bound.new : Bound (new : EventLoopThread F) where
  hasLoop := by simp [EventLoopThread.new,Worker.hasPublished]
  found h := nomatch h
  ended h := nomatch h

/-- The owner moves on. -/
theorem Bound.move (h : Bound s) (next : Owner)
    (hfound : next.hasFound = true → s.worker.hasPublished = true)
    (hended : next = .destroyed → s.worker = .finished) : Bound {s with owner := next} :=
  ⟨h.hasLoop,hfound,hended⟩

/-- The thread moves on, before it leaves the loop. -/
theorem Bound.next (h : Bound s) {worker : Worker} (hold : s.worker ≠ .finished)
    (hl : s.hasLoop = true) (hpub : worker.hasPublished = true) (hnew : worker ≠ .finished) :
    Bound {s with worker := worker} where
  hasLoop := by simp [hl,hpub,hnew]
  found _ := hpub
  ended ho := absurd (h.ended ho) hold

theorem Bound.step (h : Bound s) (ht : s.step e = some t) : Bound t := by
  have hset {worker : Worker} (hw : s.worker = worker) (hpub : worker.hasPublished = true)
      (hnew : worker ≠ .finished) : s.hasLoop = true :=
    h.hasLoop.mpr ⟨hw ▸ hpub,hw ▸ hnew⟩
  cases e with
  | start =>
    obtain ⟨⟨-,hw⟩,ht⟩ := Option.ite_none_right_eq_some.mp ht
    obtain rfl := Option.some.inj ht
    have hl := h.hasLoop
    rw [hw] at hl
    exact ⟨by simpa [Worker.hasPublished] using hl,(by intro h; cases h),(by intro h; cases h)⟩
  | test =>
    obtain ⟨-,ht⟩ := Option.ite_none_right_eq_some.mp ht
    obtain rfl := Option.some.inj ht
    by_cases hl : s.hasLoop = true
    · rw [if_pos hl]
      exact h.move .started (fun _ => (h.hasLoop.mp hl).1) (by intro h; cases h)
    · rw [if_neg hl]
      exact h.move .parking (by intro h; cases h) (by intro h; cases h)
  | wait | spurious =>
    obtain ⟨-,ht⟩ := Option.ite_none_right_eq_some.mp ht
    obtain rfl := Option.some.inj ht
    exact h.move _ (by intro h; cases h) (by intro h; cases h)
  | destroy =>
    obtain ⟨ho,ht⟩ := Option.ite_none_right_eq_some.mp ht
    obtain rfl := Option.some.inj ht
    have hpub := h.found (by rw [ho]; rfl)
    by_cases hl : s.hasLoop = true
    · rw [if_pos hl]
      exact h.move .stopping (fun _ => hpub) (by intro h; cases h)
    · rw [if_neg hl]
      exact h.move .destroyed (fun _ => hpub) fun _ =>
        of_not_not fun hne => hl (h.hasLoop.mpr ⟨hpub,hne⟩)
  | quit =>
    obtain ⟨ho,ht⟩ := Option.ite_none_right_eq_some.mp ht
    obtain ⟨loop,-,rfl⟩ := Option.map_eq_some_iff.mp ht
    exact ⟨h.hasLoop,fun _ => h.found (by rw [ho]; rfl),(by intro h; cases h)⟩
  | wakeup =>
    obtain ⟨ho,ht⟩ := Option.ite_none_right_eq_some.mp ht
    obtain ⟨loop,-,rfl⟩ := Option.map_eq_some_iff.mp ht
    exact ⟨h.hasLoop,fun _ => h.found (by rw [ho]; rfl),(by intro h; cases h)⟩
  | join =>
    obtain ⟨⟨ho,hw⟩,ht⟩ := Option.ite_none_right_eq_some.mp ht
    obtain rfl := Option.some.inj ht
    exact h.move .destroyed (fun _ => h.found (by rw [ho]; rfl)) fun _ => hw
  | publish =>
    obtain ⟨hw,ht⟩ := Option.ite_none_right_eq_some.mp ht
    obtain rfl := Option.some.inj ht
    exact ⟨⟨fun _ => ⟨rfl,(by intro h; cases h)⟩,fun _ => rfl⟩,fun _ => rfl,fun ho => by
      cases hw.symm.trans (h.ended ho)⟩
  | notify =>
    obtain ⟨hw,ht⟩ := Option.ite_none_right_eq_some.mp ht
    obtain rfl := Option.some.inj ht
    have hnext : Bound {s with worker := .notified} :=
      h.next (by rw [hw]; decide) (hset hw rfl (by decide)) rfl (by decide)
    by_cases ho : s.owner = .waiting
    · rw [if_pos ho]
      exact hnext.move .testing (by intro h; cases h) (by intro h; cases h)
    · rw [if_neg ho]
      exact hnext
  | enter =>
    obtain ⟨hw,ht⟩ := Option.ite_none_right_eq_some.mp ht
    obtain rfl := Option.some.inj ht
    have hnext : Bound {s with worker := .looping} :=
      h.next (by rw [hw]; decide) (hset hw rfl (by decide)) rfl (by decide)
    exact ⟨hnext.hasLoop,hnext.found,hnext.ended⟩
  | loop e =>
    obtain ⟨-,ht⟩ := Option.ite_none_right_eq_some.mp ht
    obtain ⟨loop,-,rfl⟩ := Option.map_eq_some_iff.mp ht
    exact ⟨h.hasLoop,h.found,h.ended⟩
  | poll =>
    obtain ⟨-,ht⟩ := Option.ite_none_right_eq_some.mp ht
    obtain rfl := Option.some.inj ht
    exact ⟨h.hasLoop,h.found,h.ended⟩
  | leave =>
    obtain ⟨-,ht⟩ := Option.ite_none_right_eq_some.mp ht
    obtain rfl := Option.some.inj ht
    exact ⟨⟨(by intro h; cases h),fun hno => absurd rfl hno.2⟩,fun _ => rfl,fun _ => rfl⟩

/-- The destructor has found `loop_` set. -/
def Stopping (o : Owner) : Prop := o = .stopping ∨ o = .quitting ∨ o = .joining

instance (o : Owner) : Decidable (Stopping o) := inferInstanceAs (Decidable (_ ∨ _ ∨ _))

/-- The owner stays in its destructor, and leaves it by `join`. -/
theorem step_stopping (ho : Stopping s.owner) (ht : s.step e = some t) :
    Stopping t.owner ∧ e.call ≠ some .join ∨ t.owner = .destroyed ∧ e.call = some .join := by
  have hnot {o : Owner} (hs : s.owner = o) (hno : ¬Stopping o) : False := hno (hs ▸ ho)
  cases e with
  | start =>
    obtain ⟨⟨hs,-⟩,-⟩ := Option.ite_none_right_eq_some.mp ht
    exact (hnot hs (by decide)).elim
  | test | wait | spurious | destroy =>
    obtain ⟨hs,-⟩ := Option.ite_none_right_eq_some.mp ht
    exact (hnot hs (by decide)).elim
  | quit =>
    obtain ⟨-,ht⟩ := Option.ite_none_right_eq_some.mp ht
    obtain ⟨loop,-,rfl⟩ := Option.map_eq_some_iff.mp ht
    exact .inl ⟨.inr (.inl rfl),nofun⟩
  | wakeup =>
    obtain ⟨-,ht⟩ := Option.ite_none_right_eq_some.mp ht
    obtain ⟨loop,-,rfl⟩ := Option.map_eq_some_iff.mp ht
    exact .inl ⟨.inr (.inr rfl),nofun⟩
  | join =>
    obtain ⟨-,ht⟩ := Option.ite_none_right_eq_some.mp ht
    obtain rfl := Option.some.inj ht
    exact .inr ⟨rfl,rfl⟩
  | notify =>
    obtain ⟨-,ht⟩ := Option.ite_none_right_eq_some.mp ht
    obtain rfl := Option.some.inj ht
    have hw : s.owner ≠ .waiting := fun hs => hnot hs (by decide)
    rw [if_neg hw]
    exact .inl ⟨ho,nofun⟩
  | publish | enter | poll | leave =>
    obtain ⟨-,ht⟩ := Option.ite_none_right_eq_some.mp ht
    obtain rfl := Option.some.inj ht
    exact .inl ⟨ho,nofun⟩
  | loop e =>
    obtain ⟨-,ht⟩ := Option.ite_none_right_eq_some.mp ht
    obtain ⟨loop,-,rfl⟩ := Option.map_eq_some_iff.mp ht
    exact .inl ⟨ho,nofun⟩

/-- Past its destructor the owner takes no step. -/
theorem step_destroyed (ho : s.owner = .destroyed) (ht : s.step e = some t) :
    t.owner = .destroyed ∧ e.call ≠ some .join := by
  have hnot {o : Owner} (hs : s.owner = o) (hno : o ≠ .destroyed) : False :=
    hno (hs.symm.trans ho)
  cases e with
  | start =>
    obtain ⟨⟨hs,-⟩,-⟩ := Option.ite_none_right_eq_some.mp ht
    exact (hnot hs (by decide)).elim
  | join =>
    obtain ⟨⟨hs,-⟩,-⟩ := Option.ite_none_right_eq_some.mp ht
    exact (hnot hs (by decide)).elim
  | test | wait | spurious | destroy | quit | wakeup =>
    obtain ⟨hs,-⟩ := Option.ite_none_right_eq_some.mp ht
    exact (hnot hs (by decide)).elim
  | notify =>
    obtain ⟨-,ht⟩ := Option.ite_none_right_eq_some.mp ht
    obtain rfl := Option.some.inj ht
    have hw : s.owner ≠ .waiting := fun hs => hnot hs (by decide)
    rw [if_neg hw]
    exact ⟨ho,nofun⟩
  | publish | enter | poll | leave =>
    obtain ⟨-,ht⟩ := Option.ite_none_right_eq_some.mp ht
    obtain rfl := Option.some.inj ht
    exact ⟨ho,nofun⟩
  | loop e =>
    obtain ⟨-,ht⟩ := Option.ite_none_right_eq_some.mp ht
    obtain ⟨loop,-,rfl⟩ := Option.map_eq_some_iff.mp ht
    exact ⟨ho,nofun⟩

end EventLoopThread

namespace OwnedThread

variable {F : Type*} {s t : OwnedThread F} {e : OwnedEvent F}

theorem onThread_eq_some {call : ThreadCall} (ht : s.onThread call = some t) :
    t.inner = s.inner ∧ s.thread.step call = some t.thread := by
  obtain ⟨thread,hthread,rfl⟩ := Option.map_eq_some_iff.mp ht
  exact ⟨rfl,hthread⟩

theorem call_outside {e : ThreadEvent F} {call : ThreadCall} (h : e.call = some call) :
    call.inDestructor = false := by
  cases e with
  | start | leave | join =>
    obtain rfl := Option.some.inj h
    rfl
  | test | wait | spurious | destroy | quit | wakeup | publish | notify | enter | loop | poll =>
    cases h

/-- A step of the owner or of the thread, with what happens to `thread_`. -/
theorem step_inner {e : ThreadEvent F} (ht : s.step (.inner e) = some t) :
    s.inner.step e = some t.inner ∧
      (e.call = none ∧ t.thread = s.thread ∨
        ∃ call, e.call = some call ∧ s.thread.step call = some t.thread) := by
  obtain ⟨-,ht⟩ := Option.ite_none_right_eq_some.mp ht
  obtain ⟨inner,hinner,ht⟩ := Option.bind_eq_some_iff.mp ht
  cases hc : e.call with
  | none =>
    rw [hc] at ht
    obtain rfl := Option.some.inj ht
    exact ⟨hinner,.inl ⟨rfl,rfl⟩⟩
  | some call =>
    rw [hc] at ht
    obtain ⟨heq,hthread⟩ := onThread_eq_some ht
    rw [heq]
    exact ⟨hinner,.inr ⟨call,rfl,hthread⟩⟩

/-- `thread_` is destroyed after the body of the destructor. -/
structure Sound (s : OwnedThread F) : Prop where
  inner : s.inner.Bound
  thread : s.thread.Sound
  outside : s.thread.destructor ≠ .none → s.inner.owner = .destroyed

theorem Sound.new : Sound (new : OwnedThread F) :=
  ⟨.new,.new,fun h => absurd rfl h⟩

theorem Sound.onThread (h : Sound s) (call : ThreadCall) (hjoin : call.isJoin = false)
    (hd : call.inDestructor = true → s.inner.owner = .destroyed)
    (ht : s.onThread call = some t) : Sound t := by
  obtain ⟨heq,hthread⟩ := onThread_eq_some ht
  have hnot : call ≠ .join := fun hc => by
    rw [hc] at hjoin
    cases hjoin
  refine ⟨heq ▸ h.inner,h.thread.step (fun hc => absurd hc hnot) hthread,fun hne => ?_⟩
  rw [heq]
  cases hc : call.inDestructor with
  | true => exact hd hc
  | false =>
    rw [(Thread.step_frame hthread).2 hc] at hne
    exact h.outside hne

theorem Sound.step (h : Sound s) (ht : s.step e = some t) : Sound t := by
  cases e with
  | inner e =>
    obtain ⟨hinner,hthread⟩ := step_inner ht
    have hbound := h.inner.step hinner
    have hdestroyed (hne : s.thread.destructor ≠ .none) :
        t.inner.owner = .destroyed ∧ e.call ≠ some .join :=
      EventLoopThread.step_destroyed (h.outside hne) hinner
    obtain ⟨-,heq⟩ | ⟨call,hcall,hstep⟩ := hthread
    · exact ⟨hbound,heq ▸ h.thread,fun hne => (hdestroyed (heq ▸ hne)).1⟩
    · refine ⟨hbound,h.thread.step (fun hjoin => ?_) hstep,fun hne => ?_⟩
      · by_contra hne
        exact (hdestroyed hne).2 (hjoin ▸ hcall)
      · rw [(Thread.step_frame hstep).2 (call_outside hcall)] at hne
        exact (hdestroyed hne).1
  | setTid id => exact h.onThread (.setTid id) rfl nofun ht
  | post => exact h.onThread .post rfl nofun ht
  | startWait => exact h.onThread .startWait rfl nofun ht
  | loopQuit =>
    obtain ⟨-,ht⟩ := Option.ite_none_right_eq_some.mp ht
    obtain ⟨loop,-,rfl⟩ := Option.map_eq_some_iff.mp ht
    exact ⟨⟨h.inner.hasLoop,h.inner.found,h.inner.ended⟩,h.thread,h.outside⟩
  | destroyThread own =>
    obtain ⟨ho,ht⟩ := Option.ite_none_right_eq_some.mp ht
    exact h.onThread (.destroy own) rfl (fun _ => ho) ht
  | destroyWait =>
    refine h.onThread .destroyWait rfl (fun _ => h.outside fun hnone => ?_) ht
    have hthread := (onThread_eq_some ht).2
    rw [Thread.step,hnone] at hthread
    cases hthread

/-- The destructor has found `loop_` set, and goes on to join the thread or has joined it. -/
def Doomed (s : OwnedThread F) : Prop :=
  EventLoopThread.Stopping s.inner.owner ∧ s.thread.destructor = .none ∨
    s.inner.owner = .destroyed ∧ s.thread.joined = true ∧
      (s.thread.destructor = .none ∨ s.thread.destructor = .waiting 0)

theorem Doomed.onThread (h : Doomed s) {call : ThreadCall}
    (hstop : EventLoopThread.Stopping s.inner.owner → call.inDestructor = false)
    (ht : s.onThread call = some t) : Doomed t := by
  obtain ⟨heq,hthread⟩ := onThread_eq_some ht
  obtain ⟨ho,hd⟩ | ⟨ho,hjoined,hd⟩ := h
  · refine .inl ⟨heq ▸ ho,?_⟩
    rw [(Thread.step_frame hthread).2 (hstop ho)]
    exact hd
  · exact .inr ⟨heq ▸ ho,Thread.step_blocked hjoined hd hthread⟩

theorem Doomed.step (h : Doomed s) (ht : s.step e = some t) : Doomed t := by
  cases e with
  | inner e =>
    obtain ⟨hinner,hthread⟩ := step_inner ht
    obtain ⟨ho,hd⟩ | ⟨ho,hjoined,hd⟩ := h
    · have hkept : t.thread.destructor = .none := by
        obtain ⟨-,heq⟩ | ⟨call,hcall,hstep⟩ := hthread
        · rw [heq]
          exact hd
        · rw [(Thread.step_frame hstep).2 (call_outside hcall)]
          exact hd
      obtain ⟨hstop,-⟩ | ⟨hend,hjoin⟩ := EventLoopThread.step_stopping ho hinner
      · exact .inl ⟨hstop,hkept⟩
      · obtain ⟨hno,-⟩ | ⟨call,hcall,hstep⟩ := hthread
        · cases hno.symm.trans hjoin
        · obtain rfl := Option.some.inj (hcall.symm.trans hjoin)
          exact .inr ⟨hend,(Thread.step_frame hstep).1.trans (Bool.or_true _),.inl hkept⟩
    · obtain ⟨hend,-⟩ := EventLoopThread.step_destroyed ho hinner
      obtain ⟨-,heq⟩ | ⟨call,-,hstep⟩ := hthread
      · rw [← heq] at hjoined hd
        exact .inr ⟨hend,hjoined,hd⟩
      · exact .inr ⟨hend,Thread.step_blocked hjoined hd hstep⟩
  | setTid id => exact h.onThread (fun _ => rfl) ht
  | post => exact h.onThread (fun _ => rfl) ht
  | startWait => exact h.onThread (fun _ => rfl) ht
  | loopQuit =>
    obtain ⟨-,ht⟩ := Option.ite_none_right_eq_some.mp ht
    obtain ⟨loop,-,rfl⟩ := Option.map_eq_some_iff.mp ht
    exact h
  | destroyThread own =>
    obtain ⟨ho,ht⟩ := Option.ite_none_right_eq_some.mp ht
    refine h.onThread (fun hstop => ?_) ht
    rw [ho] at hstop
    exact absurd hstop (by decide)
  | destroyWait =>
    have hthread := (onThread_eq_some ht).2
    refine h.onThread (fun hstop => ?_) ht
    obtain ⟨-,hd⟩ | ⟨ho,-⟩ := h
    · rw [Thread.step,hd] at hthread
      cases hthread
    · rw [ho] at hstop
      exact absurd hstop (by decide)

/-- `start` returns when `tid_` is the number of the new thread. The destructor of an
`EventLoopThread` returns only when the thread had left its loop before and was not joined: once
it has found `loop_` set it never returns, since `~Thread` of a joined thread waits for a post
that nobody makes. -/
theorem destructor_blocks (hp : (machine F).Path Machine.always .new s) :
    (s.thread.startReturned = true → s.thread.destructor = .none →
      s.thread.body.id = some s.thread.tid) ∧
    (s.thread.destructor = .returned → s.inner.worker = .finished ∧ s.thread.joined = false) ∧
    (s.inner.owner = .stopping → ∀ u, (machine F).Path Machine.always s u →
      u.thread.destructor ≠ .returned) := by
  have h : Sound s := hp.invariant (fun _ _ _ hs _ ht => hs.step ht) .new
  refine ⟨fun hstart hd => ?_,fun hret => ?_,fun ho u hu => ?_⟩
  · have hposted := h.thread.startReturned hstart
    cases hb : s.thread.body with
    | none | created | named =>
      rw [hb] at hposted
      cases hposted
    | running id | finished id =>
      have htid := h.thread.tid hd id (by rw [hb]; rfl)
      rw [htid]
      rfl
  · have hout := h.outside (by rw [hret]; nofun)
    exact ⟨h.inner.ended hout,h.thread.returned hret⟩
  · have hnone : s.thread.destructor = .none := by
      by_contra hne
      cases ho.symm.trans (h.outside hne)
    have hdoomed : Doomed u := hu.invariant (fun _ _ _ hs _ ht => hs.step ht)
      (.inl ⟨.inl ho,hnone⟩)
    intro hret
    obtain ⟨-,hd⟩ | ⟨-,-,hd⟩ := hdoomed
    · cases hd.symm.trans hret
    · rw [hret] at hd
      obtain hno | hno := hd <;> cases hno

/-- A functor of the loop quits it before the owner comes to its destructor. -/
theorem destructor_blocks_quit : ∃ s : OwnedThread Unit, s.thread.destructor = .returned ∧
    s.inner.worker = .finished ∧ s.thread.joined = false := by
  obtain ⟨s,hp,hret⟩ := Machine.exec_any (machine Unit) Machine.always .new
    [.inner .start,.setTid 7,.post,.inner .publish,.inner .notify,.inner .enter,.startWait,
      .inner .test,.inner (.loop .test),.inner .poll,.inner (.loop .wake),.loopQuit,
      .inner (.loop .swap),.inner (.loop .setCalling),.inner (.loop .done),.inner (.loop .test),
      .inner .leave,.inner .destroy,.destroyThread 1,.destroyWait]
    (fun s => decide (s.thread.destructor = .returned)) (by decide +kernel)
  exact ⟨s,of_decide_eq_true hret,(destructor_blocks hp).2.1 (of_decide_eq_true hret)⟩

end OwnedThread

end SRaftMuduo
