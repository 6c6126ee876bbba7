import SRaftMuduo.Muduo.EventLoop

namespace SRaftMuduo

/-- A functor in the queue of the loop. `std::bind` keeps the pointer `buf.c_str()` and the
length; `asked` records what the string held at the call of `send`. -/
inductive BoundSend
  | sendInLoop (data len : Nat) (asked : CString)
  | other
  deriving DecidableEq

/-- The functor will read the byte at `address`. -/
def BoundSend.covers (address : Nat) : BoundSend → Bool
  | .sendInLoop data len _ => data ≤ address && address < data+len
  | .other => false

/-- A step of the event loop that has nothing to do with `send`. -/
def LoopEvent.plain {T : Type*} : LoopEvent BoundSend T → Bool
  | .push _ f | .loopPush f => f = .other
  | _ => true

/-- A loop with a connection, the memory that the strings of its callers lie in, and the pairs
of what a string held at the call of `send` and what was handed to `sendInLoop` for it. -/
structure Senders (T : Type*) where
  loop : EventLoop BoundSend T
  memory : Nat → Char
  connected : Bool
  handed : List (CString × CString)

/-- A call of `send` by another thread or on the loop thread, a byte that a thread writes
(`none` is the loop thread), a new value of `state_`, or another step of the loop. -/
inductive SendersEvent (T : Type*)
  | send (t : T) (data len : Nat)
  | loopSend (data len : Nat)
  | store (t : Option T) (address : Nat) (c : Char)
  | setState (connected : Bool)
  | loop (e : LoopEvent BoundSend T)

namespace EventLoop

variable {F T : Type*}

/-- The functors that have not been called yet. -/
def waits (s : EventLoop F T) : List F := s.vec++s.pendingFunctors

/-- The functor that a step pushes. -/
def pushed : LoopEvent F T → List F
  | .push _ f | .loopPush f => [f]
  | _ => []

variable {s t : EventLoop F T} {e : LoopEvent F T}

theorem advance_waits (ht : s.advance e = some t) : ∀ f ∈ t.waits, f ∈ s.waits ∨ f ∈ pushed e := by
  intro f hf
  cases e with
  | push | quit | wakeup | loopWakeup => cases ht
  | test | wake | handleRead | loopQuit | setCalling | done =>
    obtain ⟨-,ht⟩ := Option.ite_none_right_eq_some.mp ht
    obtain rfl := Option.some.inj ht
    exact .inl hf
  | loopPush g =>
    obtain ⟨-,ht⟩ := Option.ite_none_right_eq_some.mp ht
    obtain rfl := Option.some.inj ht
    have hf' : f ∈ s.vec++(s.pendingFunctors++[g]) := hf
    rw [← List.append_assoc] at hf'
    exact List.mem_append.mp hf'
  | swap =>
    obtain ⟨-,ht⟩ := Option.ite_none_right_eq_some.mp ht
    obtain rfl := Option.some.inj ht
    have hf' : f ∈ s.pendingFunctors++[] := hf
    rw [List.append_nil] at hf'
    exact .inl (List.mem_append_right _ hf')
  | next =>
    rw [advance] at ht
    cases hv : s.vec with
    | nil =>
      rw [hv] at ht
      cases ht
    | cons g gs =>
      rw [hv] at ht
      obtain ⟨-,ht⟩ := Option.ite_none_right_eq_some.mp ht
      obtain rfl := Option.some.inj ht
      have hf' : f ∈ gs++s.pendingFunctors := hf
      left
      rw [waits,hv]
      exact List.mem_cons_of_mem _ hf'

/-- A functor that waits after a step waited before or has just been pushed. -/
theorem step_waits [DecidableEq T] (ht : s.step e = some t) :
    ∀ f ∈ t.waits, f ∈ s.waits ∨ f ∈ pushed e := by
  cases e with
  | push u g =>
    obtain ⟨-,ht⟩ := Option.ite_none_right_eq_some.mp ht
    obtain rfl := Option.some.inj ht
    intro f hf
    have hf' : f ∈ s.vec++(s.pendingFunctors++[g]) := hf
    rw [← List.append_assoc] at hf'
    exact List.mem_append.mp hf'
  | quit u =>
    obtain ⟨-,ht⟩ := Option.ite_none_right_eq_some.mp ht
    obtain rfl := Option.some.inj ht
    exact fun f hf => .inl hf
  | wakeup u =>
    obtain ⟨-,ht⟩ := Option.ite_none_left_eq_some.mp ht
    obtain rfl := Option.some.inj ht
    exact fun f hf => .inl hf
  | loopWakeup =>
    obtain ⟨-,ht⟩ := Option.ite_none_right_eq_some.mp ht
    obtain rfl := Option.some.inj ht
    intro f hf
    cases hcall : s.callingPendingFunctors <;> rw [hcall] at hf <;> exact .inl hf
  | test | wake | handleRead | loopPush | loopQuit | swap | setCalling | next | done =>
    simp only [step] at ht
    obtain ⟨-,ht⟩ := Option.ite_none_left_eq_some.mp ht
    exact advance_waits ht

theorem other_of_pushed {e : LoopEvent BoundSend T} (h : e.plain = true) :
    ∀ f ∈ pushed e, f = .other := by
  cases e with
  | push t g => simpa [LoopEvent.plain,pushed] using h
  | loopPush g => simpa [LoopEvent.plain,pushed] using h
  | _ => exact fun f hf => nomatch hf

end EventLoop

namespace Senders

variable {T : Type*}

/-- The bytes of a string in memory. -/
def read (memory : Nat → Char) (data len : Nat) : CString :=
  (List.range len).map fun i => memory (data+i)

def start (memory : Nat → Char) (connected : Bool) : Senders T :=
  ⟨.start,memory,connected,[]⟩

/-- What the call of the functor `f` hands to `sendInLoop`. -/
def hands (memory : Nat → Char) : BoundSend → List (CString × CString)
  | .sendInLoop data len asked => [(asked,read memory data len)]
  | .other => []

/-- What a step of the loop hands to `sendInLoop`: the functor that `DoPendingFunctors`
calls next. -/
def handedBy (s : Senders T) : LoopEvent BoundSend T → List (CString × CString)
  | .next => (s.loop.vec.take 1).flatMap (hands s.memory)
  | _ => []

variable [DecidableEq T]

/-- A thread writes to memory only while it is not inside `send`. -/
def step (s : Senders T) : SendersEvent T → Option (Senders T)
  | .send t data len =>
    if s.connected then
      (s.loop.step (.push t (.sendInLoop data len (read s.memory data len)))).map
        fun loop => {s with loop := loop}
    else if s.loop.caller t = .idle then some s else none
  | .loopSend data len =>
    if s.loop.inCallback && !s.loop.loopPushed then
      let content := read s.memory data len
      some (if s.connected then {s with handed := s.handed++[(content,content)]} else s)
    else none
  | .store t address c =>
    if t.all fun t => s.loop.caller t = .idle then
      some {s with memory := Function.update s.memory address c}
    else none
  | .setState connected => some {s with connected := connected}
  | .loop e =>
    if e.plain then
      (s.loop.step e).map fun loop => {s with loop := loop, handed := s.handed++s.handedBy e}
    else none

def machine (T : Type*) [DecidableEq T] (memory : Nat → Char) (connected : Bool) :
    Machine (Senders T) (SendersEvent T) :=
  ⟨fun s => s = start memory connected,step⟩

omit [DecidableEq T] in
/-- No thread changes a byte of a string whose `sendInLoop` is still queued. -/
def spares (s : Senders T) : SendersEvent T → Prop
  | .store _ address c => c = s.memory address ∨ ∀ f ∈ s.loop.waits, f.covers address = false
  | _ => True

instance (s : Senders T) : (e : SendersEvent T) → Decidable (s.spares e)
  | .store .. => inferInstanceAs (Decidable (_ ∨ _))
  | .send .. | .loopSend .. | .setState _ | .loop _ => .isTrue trivial

variable {s s' : Senders T} {memory : Nat → Char} {connected : Bool}

omit [DecidableEq T] in
/-- A store that keeps the byte or misses the string keeps what is read. -/
theorem read_update {data len address : Nat} {c : Char}
    (h : c = memory address ∨ ¬(data ≤ address ∧ address < data+len)) :
    read (Function.update memory address c) data len = read memory data len := by
  apply List.map_congr_left
  intro i hi
  have hlt : i < len := List.mem_range.mp hi
  by_cases ha : data+i = address
  · rw [ha,Function.update_self]
    cases h with
    | inl hc => exact hc
    | inr hout => exact absurd ⟨by omega,by omega⟩ hout
  · exact Function.update_of_ne ha ..

/-- Every queued call still finds its string, and every string handed over so far was the
one of its call. -/
structure Intact (s : Senders T) : Prop where
  waiting : ∀ data len asked, .sendInLoop data len asked ∈ s.loop.waits →
    read s.memory data len = asked
  handed : ∀ pair ∈ s.handed, pair.2 = pair.1

omit [DecidableEq T] in
theorem Intact.start (memory : Nat → Char) (connected : Bool) :
    Intact (start memory connected : Senders T) where
  waiting _ _ _ h := nomatch h
  handed _ h := nomatch h

omit [DecidableEq T] in
/-- The next functor to be called is one that waits. -/
theorem Intact.handedBy (h : Intact s) (e : LoopEvent BoundSend T) :
    ∀ pair ∈ s.handedBy e, pair.2 = pair.1 := by
  intro pair hp
  cases e with
  | next =>
    obtain ⟨f,hf,hpair⟩ := List.mem_flatMap.mp hp
    cases f with
    | other => cases hpair
    | sendInLoop data len asked =>
      obtain rfl := List.mem_singleton.mp hpair
      exact h.waiting data len asked (List.mem_append_left _ (List.mem_of_mem_take hf))
  | _ => cases hp

/-- A step of the loop keeps the queued calls intact, if what it pushes finds its string. -/
theorem Intact.waits (h : Intact s) {e : LoopEvent BoundSend T} {loop : EventLoop BoundSend T}
    (hl : s.loop.step e = some loop)
    (hpushed : ∀ data len asked, .sendInLoop data len asked ∈ EventLoop.pushed e →
      read s.memory data len = asked) :
    ∀ data len asked, .sendInLoop data len asked ∈ loop.waits →
      read s.memory data len = asked := by
  intro data len asked hw
  cases EventLoop.step_waits hl _ hw with
  | inl hold => exact h.waiting data len asked hold
  | inr hnew => exact hpushed data len asked hnew

omit [DecidableEq T] in
theorem Intact.hand (h : Intact s) {more : List (CString × CString)}
    (hmore : ∀ pair ∈ more, pair.2 = pair.1) : ∀ pair ∈ s.handed++more, pair.2 = pair.1 := by
  intro pair hp
  cases List.mem_append.mp hp with
  | inl hold => exact h.handed pair hold
  | inr hnew => exact hmore pair hnew

omit [DecidableEq T] in
/-- A store that keeps its byte or misses every queued string keeps the calls intact. -/
theorem Intact.store (h : Intact s) {t : Option T} {address : Nat} {c : Char}
    (hok : s.spares (.store t address c)) :
    Intact {s with memory := Function.update s.memory address c} where
  waiting data len asked hw := by
    rw [← h.waiting data len asked hw]
    apply read_update
    cases hok with
    | inl hsame => exact .inl hsame
    | inr hmiss =>
      have hcovers := hmiss _ hw
      right
      simpa [BoundSend.covers] using hcovers
  handed := h.handed

theorem Intact.step {e : SendersEvent T} (h : Intact s) (hok : s.spares e)
    (ht : s.step e = some s') : Intact s' := by
  cases e with
  | send t data len =>
    rw [Senders.step] at ht
    split_ifs at ht
    · obtain ⟨loop,hl,rfl⟩ := Option.map_eq_some_iff.mp ht
      refine ⟨h.waits hl ?_,h.handed⟩
      intro data' len' asked hnew
      obtain ⟨rfl,rfl,rfl⟩ := BoundSend.sendInLoop.inj (List.mem_singleton.mp hnew)
      rfl
    · obtain rfl := Option.some.inj ht
      exact h
  | loopSend data len =>
    obtain ⟨-,ht⟩ := Option.ite_none_right_eq_some.mp ht
    obtain rfl := Option.some.inj ht
    split_ifs
    · refine ⟨h.waiting,h.hand ?_⟩
      intro pair hnew
      obtain rfl := List.mem_singleton.mp hnew
      rfl
    · exact h
  | store t address c =>
    obtain ⟨-,ht⟩ := Option.ite_none_right_eq_some.mp ht
    obtain rfl := Option.some.inj ht
    exact h.store hok
  | setState connected =>
    obtain rfl := Option.some.inj ht
    exact ⟨h.waiting,h.handed⟩
  | loop e =>
    obtain ⟨hplain,ht⟩ := Option.ite_none_right_eq_some.mp ht
    obtain ⟨loop,hl,rfl⟩ := Option.map_eq_some_iff.mp ht
    refine ⟨h.waits hl ?_,h.hand (h.handedBy e)⟩
    intro data len asked hnew
    cases EventLoop.other_of_pushed hplain _ hnew

end Senders

/-- As long as no thread changes a byte of a string whose `sendInLoop` is still queued, every
string handed to `sendInLoop` is the one that `send` was given. -/
theorem send_as_given {T : Type*} [DecidableEq T] {memory : Nat → Char} {connected : Bool}
    {s : Senders T}
    (hp : (Senders.machine T memory connected).Path Senders.spares (.start memory connected) s) :
    ∀ pair ∈ s.handed, pair.2 = pair.1 := by
  have hi : s.Intact := hp.invariant (fun _ _ _ h hok ht => h.step hok ht) (.start _ _)
  exact hi.handed

/-- The string is overwritten once its functor has been called. -/
theorem send_as_given_reused : ∃ s : Senders Unit, s.handed = [(['a'],['a'])] ∧
    s.memory 0 = 'b' ∧ ∀ pair ∈ s.handed, pair.2 = pair.1 := by
  obtain ⟨s,hp,ht⟩ := Machine.exec_any (Senders.machine Unit (fun _ => 'a') true) Senders.spares
    (.start (fun _ => 'a') true)
    [.loop .test,.send () 0 1,.loop (.wakeup ()),.loop .wake,.loop .swap,.loop .setCalling,
      .loop .next,.store (some ()) 0 'b']
    (fun s => s.handed = [(['a'],['a'])] ∧ s.memory 0 = 'b') (by decide +kernel)
  have hs : s.handed = [(['a'],['a'])] ∧ s.memory 0 = 'b' := of_decide_eq_true ht
  exact ⟨s,hs.1,hs.2,send_as_given hp⟩

/-- The call has returned, its string is overwritten, and the functor sends the new bytes. -/
theorem send_overwritten : ∃ s : Senders Unit,
    (Senders.machine Unit (fun _ => 'a') true).Path Machine.always (.start (fun _ => 'a') true) s ∧
    s.handed = [(['a'],['b'])] := by
  obtain ⟨s,hp,ht⟩ := Machine.exec_any (Senders.machine Unit (fun _ => 'a') true) Machine.always
    (.start (fun _ => 'a') true)
    [.loop .test,.send () 0 1,.loop (.wakeup ()),.store (some ()) 0 'b',.loop .wake,.loop .swap,
      .loop .setCalling,.loop .next]
    (fun s => s.handed = [(['a'],['b'])]) (by decide +kernel)
  exact ⟨s,hp,of_decide_eq_true ht⟩

end SRaftMuduo
