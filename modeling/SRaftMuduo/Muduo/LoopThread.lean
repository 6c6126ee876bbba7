import SRaftMuduo.Muduo.EventLoop

namespace SRaftMuduo

/-- Where the owner stands: in `startloop` with the mutex, before and after its test of
`loop_`, in the wait, back from `startloop`, or in the destructor. -/
inductive Owner
  | idle
  | testing
  | parking
  | waiting
  | started
  | stopping
  | quitting
  | joining
  | destroyed
  deriving DecidableEq

/-- Where the thread stands in `ThreadFunc`. -/
inductive Worker
  | idle
  | constructing
  | published
  | notified
  | looping
  | finished
  deriving DecidableEq

/-- The owner has set `quit_`. -/
def Owner.hasQuit : Owner → Bool
  | .quitting | .joining | .destroyed => true
  | _ => false

/-- The call of `quit` has returned. -/
def Owner.quitReturned : Owner → Bool
  | .joining | .destroyed => true
  | _ => false

theorem Owner.quitReturned_of_hasQuit {o : Owner} (h : o.hasQuit = true) (hq : o ≠ .quitting) :
    o.quitReturned = true := by
  cases o with
  | quitting => exact absurd rfl hq
  | joining | destroyed => rfl
  | idle | testing | parking | waiting | started | stopping => cases h

/-- `startloop` has found the loop. -/
def Owner.hasFound : Owner → Bool
  | .idle | .testing | .parking | .waiting => false
  | _ => true

/-- The thread has assigned `loop_`. -/
def Worker.hasPublished : Worker → Bool
  | .idle | .constructing => false
  | _ => true

/-- The only `notify_one` has been called. -/
def Worker.hasNotified : Worker → Bool
  | .notified | .looping | .finished => true
  | _ => false

/-- An owner and its thread. `hasLoop` says that `loop_` is not null, `entering` that `loop`
is past its test of `quit_` and before `Poll`; `polls` counts the calls of `Poll` that begin
after `quit` has returned. -/
structure EventLoopThread (F : Type*) where
  owner : Owner
  worker : Worker
  hasLoop : Bool
  loop : EventLoop F Unit
  entering : Bool
  polls : Nat

/-- A step of the owner: `start` to `join`; or of the thread: `publish` to `leave`. -/
inductive ThreadEvent (F : Type*)
  | start
  | test
  | wait
  | spurious
  | destroy
  | quit
  | wakeup
  | join
  | publish
  | notify
  | enter
  | loop (e : LoopEvent F Unit)
  | poll
  | leave

/-- A step of the thread inside `loop`; only the owner calls `quit`. -/
def LoopEvent.ofWorker {F T : Type*} : LoopEvent F T → Bool
  | .push .. | .quit _ | .wakeup _ | .loopQuit => false
  | _ => true

def LoopEvent.isTest {F T : Type*} : LoopEvent F T → Bool
  | .test => true
  | _ => false

namespace EventLoopThread

variable {F : Type*}

def new : EventLoopThread F := ⟨.idle,.idle,false,.start,false,0⟩

/-- The lock of `ThreadFunc` has no mutex, so its steps wait for nobody. -/
def step (s : EventLoopThread F) : ThreadEvent F → Option (EventLoopThread F)
  | .start =>
    if s.owner = .idle ∧ s.worker = .idle then
      some {s with owner := .testing, worker := .constructing}
    else none
  | .test =>
    if s.owner = .testing then
      some {s with owner := if s.hasLoop then .started else .parking}
    else none
  | .wait => if s.owner = .parking then some {s with owner := .waiting} else none
  | .spurious => if s.owner = .waiting then some {s with owner := .testing} else none
  | .destroy =>
    if s.owner = .started then
      some {s with owner := if s.hasLoop then .stopping else .destroyed}
    else none
  | .quit =>
    if s.owner = .stopping then
      (s.loop.step (.quit ())).map fun loop => {s with owner := .quitting, loop := loop}
    else none
  | .wakeup =>
    if s.owner = .quitting then
      (s.loop.step (.wakeup ())).map fun loop => {s with owner := .joining, loop := loop}
    else none
  | .join =>
    if s.owner = .joining ∧ s.worker = .finished then some {s with owner := .destroyed}
    else none
  | .publish =>
    if s.worker = .constructing then some {s with worker := .published, hasLoop := true}
    else none
  | .notify =>
    if s.worker = .published then
      let owner := if s.owner = .waiting then .testing else s.owner
      some {s with worker := .notified, owner := owner}
    else none
  | .enter =>
    if s.worker = .notified then
      some {s with worker := .looping, loop := {s.loop with quit := false}}
    else none
  | .loop e =>
    if s.worker = .looping ∧ s.entering = false ∧ e.ofWorker = true then
      (s.loop.step e).map fun loop =>
        {s with loop := loop, entering := e.isTest && !s.loop.quit}
    else none
  | .poll =>
    if s.entering then
      let polls := if s.owner.quitReturned then s.polls+1 else s.polls
      some {s with entering := false, polls := polls}
    else none
  | .leave =>
    if s.worker = .looping ∧ s.loop.phase = .stopped then
      some {s with worker := .finished, hasLoop := false}
    else none

def machine (F : Type*) : Machine (EventLoopThread F) (ThreadEvent F) :=
  ⟨fun s => s = new,step⟩

/-- The notification does not fall between the owner's test and its wait, and `loop` does not
reset a `quit_` that the owner has set. -/
def careful (s : EventLoopThread F) : ThreadEvent F → Prop
  | .notify => s.owner ≠ .parking
  | .enter => s.loop.quit = false
  | _ => True

instance (s : EventLoopThread F) : (e : ThreadEvent F) → Decidable (s.careful e)
  | .notify => inferInstanceAs (Decidable (_ ≠ _))
  | .enter => inferInstanceAs (Decidable (_ = _))
  | .start | .test | .wait | .spurious | .destroy | .quit | .wakeup | .join | .publish
  | .loop _ | .poll | .leave => .isTrue trivial

/-- What holds between any two steps: an owner that may still wait has not been notified yet,
`quit_` is what the owner made it, and at most one `Poll` begins after `quit`. -/
structure Sound (s : EventLoopThread F) : Prop where
  hasLoop : s.hasLoop = true ↔ s.worker.hasPublished = true ∧ s.worker ≠ .finished
  waiting : s.owner = .parking ∨ s.owner = .waiting → s.worker.hasNotified = false
  idle : s.owner = .idle → s.worker = .idle
  found : s.owner.hasFound = true → s.worker.hasPublished = true
  quit : s.loop.quit = s.owner.hasQuit
  stopped : s.loop.phase = .stopped → s.loop.quit = true
  finished : s.worker = .finished → s.loop.quit = true
  early : s.owner.quitReturned = false → s.polls = 0
  late : s.polls+(if s.entering then 1 else 0) ≤ 1

theorem Sound.new : Sound (new : EventLoopThread F) where
  hasLoop := by simp [EventLoopThread.new,Worker.hasPublished]
  waiting _ := rfl
  idle _ := rfl
  found h := nomatch h
  quit := rfl
  stopped h := nomatch h
  finished h := nomatch h
  early _ := rfl
  late := by simp [EventLoopThread.new]

end EventLoopThread

section

variable {F T : Type*} [DecidableEq T] {s t : EventLoop F T} {e : LoopEvent F T}

/-- The thread itself leaves `quit_` alone, and stops only when it is set. -/
theorem EventLoop.step_ofWorker (hw : e.ofWorker = true) (ht : s.step e = some t) :
    t.quit = s.quit ∧ (t.phase = .stopped → s.phase = .stopped ∨ s.quit = true) := by
  cases e with
  | push | quit | wakeup | loopQuit => cases hw
  | loopWakeup =>
    obtain ⟨-,ht⟩ := Option.ite_none_right_eq_some.mp ht
    obtain rfl := Option.some.inj ht
    cases s.callingPendingFunctors <;> exact ⟨rfl,.inl⟩
  | next =>
    simp only [step,advance] at ht
    obtain ⟨-,ht⟩ := Option.ite_none_left_eq_some.mp ht
    cases hv : s.vec with
    | nil =>
      rw [hv] at ht
      cases ht
    | cons f fs =>
      rw [hv] at ht
      obtain ⟨-,ht⟩ := Option.ite_none_right_eq_some.mp ht
      obtain rfl := Option.some.inj ht
      exact ⟨rfl,.inl⟩
  | test =>
    simp only [step,advance] at ht
    obtain ⟨-,ht⟩ := Option.ite_none_left_eq_some.mp ht
    obtain ⟨-,ht⟩ := Option.ite_none_right_eq_some.mp ht
    obtain rfl := Option.some.inj ht
    refine ⟨rfl,fun hs => .inr ?_⟩
    cases hq : s.quit with
    | true => rfl
    | false => simp [hq] at hs
  | wake | handleRead | loopPush | swap | setCalling | done =>
    simp only [step,advance] at ht
    obtain ⟨-,ht⟩ := Option.ite_none_left_eq_some.mp ht
    obtain ⟨-,ht⟩ := Option.ite_none_right_eq_some.mp ht
    obtain rfl := Option.some.inj ht
    refine ⟨rfl,fun hs => ?_⟩
    first | exact .inl hs | cases hs

end

namespace EventLoopThread

variable {F : Type*} {s t : EventLoopThread F} {e : ThreadEvent F}

/-- The owner moves on from `old` without a change of `quit_`. -/
theorem Sound.move (h : Sound s) {old : Owner} (ho : s.owner = old) (next : Owner)
    (hquit : next.hasQuit = old.hasQuit) (hreturned : next.quitReturned = old.quitReturned)
    (hidle : next ≠ .idle)
    (hwait : next = .parking ∨ next = .waiting → s.worker.hasNotified = false)
    (hfound : next.hasFound = true → s.worker.hasPublished = true) :
    Sound {s with owner := next} where
  hasLoop := h.hasLoop
  waiting := hwait
  idle hi := absurd hi hidle
  found := hfound
  quit := by rw [h.quit,ho,hquit]
  stopped := h.stopped
  finished := h.finished
  early hn := h.early (by rw [ho,← hreturned,hn])
  late := h.late

theorem Sound.not_idle (h : Sound s) (hw : s.worker ≠ .idle) : s.owner ≠ .idle :=
  fun ho => hw (h.idle ho)

/-- Before `quit_` is set the thread has not left the loop. -/
theorem Sound.not_finished (h : Sound s) (hq : s.owner.hasQuit = false) : s.worker ≠ .finished := by
  intro hf
  have hset := h.finished hf
  rw [h.quit,hq] at hset
  cases hset

theorem Sound.notified (h : Sound s) (hw : s.worker = .published) (hpark : s.owner ≠ .parking)
    (hwait : s.owner ≠ .waiting) : Sound {s with worker := .notified} where
  hasLoop := by
    have hl : s.hasLoop = true := h.hasLoop.mpr (by rw [hw]; simp [Worker.hasPublished])
    simpa [Worker.hasPublished] using hl
  waiting ho := ho.elim (absurd · hpark) (absurd · hwait)
  idle ho := absurd ho (h.not_idle (by rw [hw]; nofun))
  found _ := rfl
  quit := h.quit
  stopped := h.stopped
  finished := nofun
  early := h.early
  late := h.late

theorem Sound.start (h : Sound s) (ho : s.owner = .idle) (hw : s.worker = .idle) :
    Sound {s with owner := .testing, worker := .constructing} where
  hasLoop := by
    have hl := h.hasLoop
    rw [hw] at hl
    simpa [Worker.hasPublished] using hl
  waiting _ := rfl
  idle := nofun
  found := nofun
  quit := by rw [h.quit,ho]; rfl
  stopped := h.stopped
  finished := nofun
  early _ := h.early (by rw [ho]; rfl)
  late := h.late

/-- The owner's test of `loop_`: an owner that goes on to the wait has come before `publish`. -/
theorem Sound.test (h : Sound s) (ho : s.owner = .testing) :
    Sound {s with owner := if s.hasLoop then .started else .parking} := by
  have hl := h.hasLoop
  by_cases hloop : s.hasLoop = true
  · rw [if_pos hloop]
    exact h.move ho .started rfl rfl nofun nofun fun _ => (hl.mp hloop).1
  · rw [if_neg hloop]
    refine h.move ho .parking rfl rfl nofun (fun _ => ?_) nofun
    have hunfinished := h.not_finished (by rw [ho]; rfl)
    have hpub : s.worker.hasPublished ≠ true := fun hp => hloop (hl.mpr ⟨hp,hunfinished⟩)
    cases hw : s.worker with
    | idle | constructing => rfl
    | published | notified | looping | finished =>
      rw [hw] at hpub
      exact absurd rfl hpub

/-- The destructor finds `loop_` set. -/
theorem Sound.destroy (h : Sound s) (ho : s.owner = .started) :
    Sound {s with owner := if s.hasLoop then .stopping else .destroyed} := by
  have hpub := h.found (by rw [ho]; rfl)
  have hunfinished := h.not_finished (by rw [ho]; rfl)
  rw [if_pos (h.hasLoop.mpr ⟨hpub,hunfinished⟩)]
  exact h.move ho .stopping rfl rfl nofun nofun fun _ => hpub

theorem Sound.quitting (h : Sound s) (ho : s.owner = .stopping) {loop : EventLoop F Unit}
    (hl : loop.quit = true) : Sound {s with owner := .quitting, loop := loop} where
  hasLoop := h.hasLoop
  waiting hi := by simp at hi
  idle := nofun
  found _ := h.found (by rw [ho]; rfl)
  quit := hl
  stopped _ := hl
  finished _ := hl
  early _ := h.early (by rw [ho]; rfl)
  late := h.late

theorem Sound.joining (h : Sound s) (ho : s.owner = .quitting) {loop : EventLoop F Unit}
    (hquit : loop.quit = s.loop.quit) (hphase : loop.phase = s.loop.phase) :
    Sound {s with owner := .joining, loop := loop} where
  hasLoop := h.hasLoop
  waiting hi := by simp at hi
  idle := nofun
  found _ := h.found (by rw [ho]; rfl)
  quit := by rw [hquit,h.quit,ho]; rfl
  stopped hs := hquit.trans (h.stopped (hphase.symm.trans hs))
  finished hf := hquit.trans (h.finished hf)
  early := nofun
  late := h.late

theorem Sound.publish (h : Sound s) (hw : s.worker = .constructing) :
    Sound {s with worker := .published, hasLoop := true} where
  hasLoop := by simp [Worker.hasPublished]
  waiting _ := rfl
  idle ho := absurd ho (h.not_idle (by rw [hw]; nofun))
  found _ := rfl
  quit := h.quit
  stopped := h.stopped
  finished := nofun
  early := h.early
  late := h.late

theorem Sound.enter (h : Sound s) (hw : s.worker = .notified) (hquit : s.loop.quit = false) :
    Sound {s with worker := .looping, loop := {s.loop with quit := false}} where
  hasLoop := by
    have hl : s.hasLoop = true := h.hasLoop.mpr (by rw [hw]; simp [Worker.hasPublished])
    simpa [Worker.hasPublished] using hl
  waiting ho := by
    have hno := h.waiting ho
    rw [hw] at hno
    cases hno
  idle ho := absurd ho (h.not_idle (by rw [hw]; nofun))
  found _ := rfl
  quit := hquit.symm.trans h.quit
  stopped hs := hquit.symm.trans (h.stopped hs)
  finished := nofun
  early := h.early
  late := h.late

/-- While `quit_` is unset, no `Poll` is counted. -/
theorem Sound.unset (h : Sound s) (hq : s.loop.quit = false) : s.polls = 0 := by
  have hset := h.quit.symm.trans hq
  refine h.early ?_
  cases ho : s.owner with
  | quitting | joining | destroyed =>
    rw [ho] at hset
    cases hset
  | idle | testing | parking | waiting | started | stopping => rfl

/-- The thread inside `loop`: a test that goes on to `Poll` has found `quit_` unset. -/
theorem Sound.inner (h : Sound s) (hw : s.worker = .looping) (hentering : s.entering = false)
    {e : LoopEvent F Unit} (he : e.ofWorker = true) {loop : EventLoop F Unit}
    (hl : s.loop.step e = some loop) :
    Sound {s with loop := loop, entering := e.isTest && !s.loop.quit} := by
  obtain ⟨hquit,hphase⟩ := EventLoop.step_ofWorker he hl
  refine ⟨h.hasLoop,h.waiting,h.idle,h.found,hquit.trans h.quit,?stopped,?finished,h.early,?late⟩
  case stopped =>
    intro hs
    cases hphase hs with
    | inl hold => exact hquit.trans (h.stopped hold)
    | inr hset => exact hquit.trans hset
  case finished =>
    intro hf
    rw [hw] at hf
    cases hf
  case late =>
    have hlate := h.late
    dsimp only
    cases hq : s.loop.quit with
    | true =>
      rw [hentering] at hlate
      simpa using hlate
    | false =>
      rw [h.unset hq]
      split_ifs <;> simp

theorem Sound.poll (h : Sound s) (hentering : s.entering = true) :
    Sound {s with entering := false,
                  polls := if s.owner.quitReturned then s.polls+1 else s.polls} := by
  have hlate := h.late
  rw [if_pos hentering] at hlate
  refine ⟨h.hasLoop,h.waiting,h.idle,h.found,h.quit,h.stopped,h.finished,?early,?late⟩
  case early =>
    intro ho
    dsimp only at ho ⊢
    rw [if_neg (by simp [ho])]
    exact h.early ho
  case late =>
    dsimp only
    split_ifs with hreturned hin hin
    · cases hin
    · exact hlate
    · cases hin
    · exact Nat.le_of_succ_le hlate

theorem Sound.leave (h : Sound s) (hw : s.worker = .looping) (hphase : s.loop.phase = .stopped) :
    Sound {s with worker := .finished, hasLoop := false} where
  hasLoop := by simp
  waiting ho := by
    have hno := h.waiting ho
    rw [hw] at hno
    cases hno
  idle ho := absurd ho (h.not_idle (by rw [hw]; nofun))
  found _ := rfl
  quit := h.quit
  stopped := h.stopped
  finished _ := h.stopped hphase
  early := h.early
  late := h.late

theorem Sound.step (h : Sound s) (hok : s.careful e) (ht : s.step e = some t) : Sound t := by
  cases e with
  | start =>
    obtain ⟨⟨ho,hw⟩,ht⟩ := Option.ite_none_right_eq_some.mp ht
    obtain rfl := Option.some.inj ht
    exact h.start ho hw
  | test =>
    obtain ⟨ho,ht⟩ := Option.ite_none_right_eq_some.mp ht
    obtain rfl := Option.some.inj ht
    exact h.test ho
  | wait =>
    obtain ⟨ho,ht⟩ := Option.ite_none_right_eq_some.mp ht
    obtain rfl := Option.some.inj ht
    exact h.move ho .waiting rfl rfl nofun (fun _ => h.waiting (.inl ho)) nofun
  | spurious =>
    obtain ⟨ho,ht⟩ := Option.ite_none_right_eq_some.mp ht
    obtain rfl := Option.some.inj ht
    exact h.move ho .testing rfl rfl nofun nofun nofun
  | destroy =>
    obtain ⟨ho,ht⟩ := Option.ite_none_right_eq_some.mp ht
    obtain rfl := Option.some.inj ht
    exact h.destroy ho
  | quit =>
    obtain ⟨ho,ht⟩ := Option.ite_none_right_eq_some.mp ht
    obtain ⟨loop,hl,rfl⟩ := Option.map_eq_some_iff.mp ht
    obtain ⟨-,hl⟩ := Option.ite_none_right_eq_some.mp hl
    obtain rfl := Option.some.inj hl
    exact h.quitting ho rfl
  | wakeup =>
    obtain ⟨ho,ht⟩ := Option.ite_none_right_eq_some.mp ht
    obtain ⟨loop,hl,rfl⟩ := Option.map_eq_some_iff.mp ht
    obtain ⟨-,hl⟩ := Option.ite_none_left_eq_some.mp hl
    obtain rfl := Option.some.inj hl
    exact h.joining ho rfl rfl
  | join =>
    obtain ⟨⟨ho,hw⟩,ht⟩ := Option.ite_none_right_eq_some.mp ht
    obtain rfl := Option.some.inj ht
    exact h.move ho .destroyed rfl rfl nofun nofun fun _ => by
      rw [hw]
      rfl
  | publish =>
    obtain ⟨hw,ht⟩ := Option.ite_none_right_eq_some.mp ht
    obtain rfl := Option.some.inj ht
    exact h.publish hw
  | notify =>
    obtain ⟨hw,ht⟩ := Option.ite_none_right_eq_some.mp ht
    obtain rfl := Option.some.inj ht
    by_cases ho : s.owner = .waiting
    · rw [if_pos ho]
      exact (h.move ho .testing rfl rfl nofun nofun nofun).notified hw nofun nofun
    · rw [if_neg ho]
      exact h.notified hw hok ho
  | enter =>
    obtain ⟨hw,ht⟩ := Option.ite_none_right_eq_some.mp ht
    obtain rfl := Option.some.inj ht
    exact h.enter hw hok
  | loop e =>
    obtain ⟨⟨hw,hentering,he⟩,ht⟩ := Option.ite_none_right_eq_some.mp ht
    obtain ⟨loop,hl,rfl⟩ := Option.map_eq_some_iff.mp ht
    exact h.inner hw hentering he hl
  | poll =>
    obtain ⟨hentering,ht⟩ := Option.ite_none_right_eq_some.mp ht
    obtain rfl := Option.some.inj ht
    exact h.poll hentering
  | leave =>
    obtain ⟨⟨hw,hphase⟩,ht⟩ := Option.ite_none_right_eq_some.mp ht
    obtain rfl := Option.some.inj ht
    exact h.leave hw hphase

theorem Sound.path (hp : (machine F).Path careful .new s) : Sound s :=
  hp.invariant (fun _ _ _ h hok ht => h.step hok ht) .new

/-- A notification between the test and the wait is lost. -/
theorem notify_lost (ho : s.owner = .parking) (hw : s.worker = .published) :
    ∃ t, (machine F).Path Machine.always s t ∧ t.owner = .waiting ∧
      t.worker.hasNotified = true := by
  have hnotify : s.step .notify = some {s with worker := .notified} := by
    rw [step,if_pos hw]
    simp [ho]
  have hwait : ({s with worker := .notified} : EventLoopThread F).step .wait =
      some {s with worker := .notified, owner := .waiting} := if_pos ho
  have hp : (machine F).Path Machine.always s {s with worker := .notified} :=
    (Machine.Path.refl s).tail (e := .notify) trivial hnotify
  exact ⟨{s with worker := .notified, owner := .waiting},hp.tail (e := .wait) trivial hwait,
    rfl,rfl⟩

/-- The loop goes round after `quit` has returned, with nothing queued. -/
structure Forgotten (s : EventLoopThread F) : Prop where
  returned : s.owner.quitReturned = true
  worker : s.worker = .looping
  entering : s.entering = false
  quit : s.loop.quit = false
  phase : s.loop.phase = .head
  pushed : s.loop.loopPushed = false
  vec : s.loop.vec = []
  pending : s.loop.pendingFunctors = []

theorem Forgotten.round (h : Forgotten s) : ∃ t, (machine F).Path Machine.always s t ∧
    Forgotten t ∧ t.polls = s.polls+1 := by
  obtain ⟨owner,worker,hasLoop,loop,entering,polls⟩ := s
  obtain ⟨phase,quit,calling,pending,vec,fd,caller,lp,queued,ran⟩ := loop
  obtain ⟨hreturned,hw,he,hq,hphase,hl,hv,hpend⟩ := h
  dsimp only at hreturned hw he hq hphase hl hv hpend
  subst hw he hq hphase hl hv hpend
  let loop : EventLoop F Unit := ⟨.head,false,false,[],[],fd,caller,false,queued,ran⟩
  refine ⟨⟨owner,.looping,hasLoop,loop,false,polls+1⟩,?_,
    ⟨hreturned,rfl,rfl,rfl,rfl,rfl,rfl,rfl⟩,rfl⟩
  apply Machine.exec_path [.loop .test,.poll,.loop .wake,.loop .swap,.loop .setCalling,.loop .done]
  cases owner <;> first | rfl | cases hreturned

/-- Then no number of calls of `Poll` is the last. -/
theorem Forgotten.forever (h : Forgotten s) (n : Nat) :
    ∃ t, (machine F).Path Machine.always s t ∧ t.polls = s.polls+n := by
  suffices hrun : ∃ t, (machine F).Path Machine.always s t ∧ Forgotten t ∧
      t.polls = s.polls+n by
    obtain ⟨t,hp,-,hn⟩ := hrun
    exact ⟨t,hp,hn⟩
  induction n with
  | zero => exact ⟨s,.refl s,h,rfl⟩
  | succ n ih =>
    obtain ⟨t,hp,ht,hn⟩ := ih
    obtain ⟨u,hq,hu,hm⟩ := ht.round
    exact ⟨u,hp.trans hq,hu,by rw [hm,hn]; rfl⟩

/-- Until the thread enters `loop`, nothing has happened to the loop but `quit`. -/
structure Fresh (s : EventLoopThread F) : Prop where
  entering : s.entering = false
  phase : s.loop.phase = .head
  pushed : s.loop.loopPushed = false
  vec : s.loop.vec = []
  pending : s.loop.pendingFunctors = []
  quit : s.loop.quit = true → s.owner.hasQuit = true
  caller : s.owner = .quitting → s.loop.caller () = .quitting

theorem Fresh.new : Fresh (new : EventLoopThread F) where
  entering := rfl
  phase := rfl
  pushed := rfl
  vec := rfl
  pending := rfl
  quit h := nomatch h
  caller h := nomatch h

/-- The owner and the thread move on without a call of `quit`. -/
theorem Fresh.move (h : Fresh s) (owner : Owner) (worker : Worker) (hasLoop : Bool)
    (hq : s.owner.hasQuit = true → owner.hasQuit = true)
    (ho : owner = .quitting → s.owner = .quitting) :
    Fresh {s with owner := owner, worker := worker, hasLoop := hasLoop} where
  entering := h.entering
  phase := h.phase
  pushed := h.pushed
  vec := h.vec
  pending := h.pending
  quit hs := hq (h.quit hs)
  caller hi := h.caller (ho hi)

theorem Fresh.step (h : Fresh s) (ht : s.step e = some t) : t.worker = .looping ∨ Fresh t := by
  cases e with
  | loop e =>
    obtain ⟨⟨hw,-⟩,ht⟩ := Option.ite_none_right_eq_some.mp ht
    obtain ⟨loop,-,rfl⟩ := Option.map_eq_some_iff.mp ht
    exact .inl hw
  | enter =>
    obtain ⟨-,ht⟩ := Option.ite_none_right_eq_some.mp ht
    obtain rfl := Option.some.inj ht
    exact .inl rfl
  | start =>
    obtain ⟨⟨ho,-⟩,ht⟩ := Option.ite_none_right_eq_some.mp ht
    obtain rfl := Option.some.inj ht
    exact .inr (h.move .testing .constructing s.hasLoop (by simp [ho,Owner.hasQuit]) nofun)
  | test =>
    obtain ⟨ho,ht⟩ := Option.ite_none_right_eq_some.mp ht
    obtain rfl := Option.some.inj ht
    exact .inr (h.move _ s.worker s.hasLoop (by simp [ho,Owner.hasQuit]) (by split_ifs <;> nofun))
  | wait =>
    obtain ⟨ho,ht⟩ := Option.ite_none_right_eq_some.mp ht
    obtain rfl := Option.some.inj ht
    exact .inr (h.move .waiting s.worker s.hasLoop (by simp [ho,Owner.hasQuit]) nofun)
  | spurious =>
    obtain ⟨ho,ht⟩ := Option.ite_none_right_eq_some.mp ht
    obtain rfl := Option.some.inj ht
    exact .inr (h.move .testing s.worker s.hasLoop (by simp [ho,Owner.hasQuit]) nofun)
  | destroy =>
    obtain ⟨ho,ht⟩ := Option.ite_none_right_eq_some.mp ht
    obtain rfl := Option.some.inj ht
    exact .inr (h.move _ s.worker s.hasLoop (by simp [ho,Owner.hasQuit]) (by split_ifs <;> nofun))
  | quit =>
    obtain ⟨ho,ht⟩ := Option.ite_none_right_eq_some.mp ht
    obtain ⟨loop,hl,rfl⟩ := Option.map_eq_some_iff.mp ht
    obtain ⟨-,hl⟩ := Option.ite_none_right_eq_some.mp hl
    obtain rfl := Option.some.inj hl
    exact .inr ⟨h.entering,h.phase,h.pushed,h.vec,h.pending,fun _ => rfl,
      fun _ => by simp [EventLoop.setCaller]⟩
  | wakeup =>
    obtain ⟨ho,ht⟩ := Option.ite_none_right_eq_some.mp ht
    obtain ⟨loop,hl,rfl⟩ := Option.map_eq_some_iff.mp ht
    obtain ⟨-,hl⟩ := Option.ite_none_left_eq_some.mp hl
    obtain rfl := Option.some.inj hl
    exact .inr ⟨h.entering,h.phase,h.pushed,h.vec,h.pending,fun _ => rfl,nofun⟩
  | join =>
    obtain ⟨-,ht⟩ := Option.ite_none_right_eq_some.mp ht
    obtain rfl := Option.some.inj ht
    exact .inr (h.move .destroyed s.worker s.hasLoop (fun _ => rfl) nofun)
  | publish =>
    obtain ⟨-,ht⟩ := Option.ite_none_right_eq_some.mp ht
    obtain rfl := Option.some.inj ht
    exact .inr (h.move s.owner .published true id id)
  | notify =>
    obtain ⟨-,ht⟩ := Option.ite_none_right_eq_some.mp ht
    obtain rfl := Option.some.inj ht
    by_cases ho : s.owner = .waiting
    · rw [if_pos ho]
      exact .inr (h.move .testing .notified s.hasLoop (by simp [ho,Owner.hasQuit]) nofun)
    · rw [if_neg ho]
      exact .inr (h.move s.owner .notified s.hasLoop id id)
  | poll =>
    obtain ⟨he,-⟩ := Option.ite_none_right_eq_some.mp ht
    rw [h.entering] at he
    cases he
  | leave =>
    obtain ⟨⟨-,hphase⟩,-⟩ := Option.ite_none_right_eq_some.mp ht
    rw [h.phase] at hphase
    cases hphase

/-- A thread in `loop` or past it stays there. -/
theorem step_entered (ht : s.step e = some t)
    (hw : s.worker = .looping ∨ s.worker = .finished) :
    t.worker = .looping ∨ t.worker = .finished := by
  cases e with
  | start =>
    obtain ⟨⟨-,hno⟩,-⟩ := Option.ite_none_right_eq_some.mp ht
    simp [hno] at hw
  | publish | notify | enter =>
    obtain ⟨hno,-⟩ := Option.ite_none_right_eq_some.mp ht
    simp [hno] at hw
  | leave =>
    obtain ⟨-,ht⟩ := Option.ite_none_right_eq_some.mp ht
    obtain rfl := Option.some.inj ht
    exact .inr rfl
  | quit | wakeup | loop =>
    obtain ⟨-,ht⟩ := Option.ite_none_right_eq_some.mp ht
    obtain ⟨loop,-,rfl⟩ := Option.map_eq_some_iff.mp ht
    exact hw
  | test | wait | spurious | destroy | join | poll =>
    obtain ⟨-,ht⟩ := Option.ite_none_right_eq_some.mp ht
    obtain rfl := Option.some.inj ht
    exact hw

theorem Fresh.path (hp : (machine F).Path Machine.always .new s) :
    (s.worker = .looping ∨ s.worker = .finished) ∨ Fresh s := by
  refine hp.invariant (I := fun s => (s.worker = .looping ∨ s.worker = .finished) ∨ Fresh s) ?_
    (.inr .new)
  intro s e t hs _ hm
  have ht : s.step e = some t := hm
  cases hs with
  | inl hw => exact .inl (step_entered ht hw)
  | inr hf =>
    cases hf.step ht with
    | inl hw => exact .inl (.inl hw)
    | inr hf => exact .inr hf

/-- From wherever the thread may reset a `quit_` that is set, any number of calls of `Poll`
can begin after `quit` has returned. -/
theorem reset_forgets (hp : (machine F).Path Machine.always .new s) (hw : s.worker = .notified)
    (hq : s.loop.quit = true) (n : Nat) :
    ∃ t, (machine F).Path Machine.always s t ∧ n ≤ t.polls := by
  have hf : Fresh s := by
    cases Fresh.path hp with
    | inl hin => simp [hw] at hin
    | inr hf => exact hf
  -- the owner comes back from `quit`, and the thread enters `loop`
  obtain ⟨t,ht,hforgotten⟩ : ∃ t, (machine F).Path Machine.always s t ∧ Forgotten t := by
    have hset := hf.quit hq
    by_cases ho : s.owner = .quitting
    · let u : EventLoopThread F :=
        {s with owner := .joining, loop := s.loop.Wakeup.setCaller () .idle}
      have hwake : (machine F).step s .wakeup = some u := by
        show s.step .wakeup = some u
        rw [step,if_pos ho,EventLoop.step,if_neg (by rw [hf.caller ho]; decide)]
        rfl
      have henter : (machine F).step u .enter =
          some {u with worker := .looping, loop := {u.loop with quit := false}} := if_pos hw
      exact ⟨_,((Machine.Path.refl s).tail trivial hwake).tail trivial henter,
        rfl,rfl,hf.entering,rfl,hf.phase,hf.pushed,hf.vec,hf.pending⟩
    · have hreturned := Owner.quitReturned_of_hasQuit hset ho
      have henter : (machine F).step s .enter =
          some {s with worker := .looping, loop := {s.loop with quit := false}} := if_pos hw
      exact ⟨_,(Machine.Path.refl s).tail trivial henter,
        hreturned,rfl,hf.entering,rfl,hf.phase,hf.pushed,hf.vec,hf.pending⟩
  obtain ⟨r,hr,hn⟩ := hforgotten.forever n
  exact ⟨r,ht.trans hr,by omega⟩

end EventLoopThread

/-- As long as the notification does not fall between the owner's test and its wait and
`loop` resets no `quit_` that is set, the owner never waits for a notification that has been
sent, and at most one `Poll` begins after `quit` has returned. -/
theorem start_and_stop {F : Type*} {s : EventLoopThread F}
    (hp : (EventLoopThread.machine F).Path EventLoopThread.careful .new s) :
    ¬(s.owner = .waiting ∧ s.worker.hasNotified = true) ∧ s.polls ≤ 1 := by
  have h := EventLoopThread.Sound.path hp
  have hlate := h.late
  constructor
  · intro hlost
    have hno := h.waiting (.inr hlost.1)
    rw [hlost.2] at hno
    cases hno
  · omega

/-- The owner waits and is notified; the loop is stopped while it is in `Poll`. -/
theorem start_and_stop_joined : ∃ s : EventLoopThread Nat, s.owner = .destroyed ∧
    ¬(s.owner = .waiting ∧ s.worker.hasNotified = true) ∧ s.polls ≤ 1 := by
  obtain ⟨s,hp,ht⟩ := Machine.exec_any (EventLoopThread.machine Nat) EventLoopThread.careful .new
    [.start,.test,.wait,.publish,.notify,.test,.enter,.loop .test,.poll,.destroy,.quit,.wakeup,
      .loop .wake,.loop .handleRead,.loop .swap,.loop .setCalling,.loop .done,.loop .test,.leave,
      .join]
    (fun s => s.owner = .destroyed) (by decide +kernel)
  exact ⟨s,of_decide_eq_true ht,start_and_stop hp⟩

/-- The notification comes between the owner's test and its wait; and `loop` resets the
`quit_` of an owner that was faster. -/
theorem start_and_stop_forgotten :
    (∃ s : EventLoopThread Nat, (EventLoopThread.machine Nat).Path Machine.always .new s ∧
      s.owner = .waiting ∧ s.worker.hasNotified = true) ∧
    ∃ s : EventLoopThread Nat, (EventLoopThread.machine Nat).Path Machine.always .new s ∧
      s.owner = .joining ∧ s.polls = 2 := by
  constructor
  · obtain ⟨s,hp,ht⟩ := Machine.exec_any (EventLoopThread.machine Nat) Machine.always .new
      [.start,.test,.publish,.notify,.wait]
      (fun s => s.owner = .waiting ∧ s.worker.hasNotified = true) (by decide +kernel)
    have hs : s.owner = .waiting ∧ s.worker.hasNotified = true := of_decide_eq_true ht
    exact ⟨s,hp,hs⟩
  · obtain ⟨s,hp,ht⟩ := Machine.exec_any (EventLoopThread.machine Nat) Machine.always .new
      [.start,.publish,.notify,.test,.destroy,.quit,.wakeup,.enter,.loop .test,.poll,.loop .wake,
        .loop .handleRead,.loop .swap,.loop .setCalling,.loop .done,.loop .test,.poll]
      (fun s => s.owner = .joining ∧ s.polls = 2) (by decide +kernel)
    have hs : s.owner = .joining ∧ s.polls = 2 := of_decide_eq_true ht
    exact ⟨s,hp,hs⟩

end SRaftMuduo
