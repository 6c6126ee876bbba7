import SRaftMuduo.Store.MyChannel
import SRaftMuduo.Cluster.System
import Mathlib.Data.Fintype.Option

namespace SRaftMuduo

/-- Where `recieveMsgThread` stands: before its test of `tobeDestroy_`, in `popData`, with a
command, or past its loop. -/
inductive Receiver
  | testing
  | popping
  | executing (cmd : CString)
  | finished
  deriving DecidableEq

/-- A `Skvserver` with its threads: in the channel, `none` is `recieveMsgThread` and the others
push. The destructor sets `tobeDestroy_` and has then `joined`. -/
structure Skvserver (ι : Type*) where
  channel : Threads (List CString) (ChannelCall CString) (Option CString) (Option ι)
  receiver : Receiver
  kvDB : Store
  tobeDestroy : Bool
  joined : Bool

inductive SkvserverEvent (ι : Type*)
  | push (i : ι) (cmd : CString)
  | channel (e : MonitorEvent (ChannelCall CString) (Option ι))
  | test
  | execute
  | destroy
  | join

/-- The receiver after a step in the channel: the unlock at the end of `popData` gives it its
command. -/
def Receiver.after {ι : Type*} (receiver : Receiver)
    (channel : Threads (List CString) (ChannelCall CString) (Option CString) (Option ι)) :
    MonitorEvent (ChannelCall CString) (Option ι) → Receiver
  | .unlock none =>
    match channel.place none with
    | .leaving .popData (some cmd) => .executing cmd
    | _ => receiver
  | _ => receiver

namespace Skvserver

variable {ι : Type*} [Fintype ι] [DecidableEq ι]

def step (s : Skvserver ι) : SkvserverEvent ι → Option (Skvserver ι)
  | .push i cmd =>
    ((MyChannel.monitor CString).step s.channel (.call (some i) (.pushData cmd))).map
      fun channel => {s with channel := channel}
  | .channel e =>
    match e with
    | .call .. => none
    | e =>
      ((MyChannel.monitor CString).step s.channel e).map fun channel =>
        {s with channel := channel, receiver := s.receiver.after s.channel e}
  | .test =>
    if s.receiver = .testing then
      if s.tobeDestroy then some {s with receiver := .finished}
      else ((MyChannel.monitor CString).step s.channel (.call none .popData)).map
        fun channel => {s with channel := channel, receiver := .popping}
    else none
  | .execute =>
    match s.receiver with
    | .executing cmd => some {s with receiver := .testing, kvDB := s.kvDB.execute cmd}
    | _ => none
  | .destroy => if s.tobeDestroy then none else some {s with tobeDestroy := true}
  | .join =>
    if s.tobeDestroy = true ∧ s.receiver = .finished then some {s with joined := true} else none

def start : Skvserver ι :=
  ⟨⟨[],none,fun _ => .outside⟩,.testing,Store.initial,false,false⟩

/-- Only `recieveMsgThread` calls `popData`, while it is in it, and the others only push. -/
def fits (popping : Bool) : Option ι → Place (ChannelCall CString) (Option CString) → Bool
  | none, .outside => !popping
  | none, .entering .popData | none, .inside .popData | none, .asleep .popData
  | none, .leaving .popData (some _) => popping
  | some _, .outside | some _, .entering (.pushData _) | some _, .inside (.pushData _)
  | some _, .signalling (.pushData _) _ | some _, .leaving (.pushData _) _ => true
  | _, _ => false

structure Sound (s : Skvserver ι) : Prop where
  channel : (MyChannel.monitor CString).Sound List.length s.channel
  places : ∀ k, fits (s.receiver = .popping) k (s.channel.place k) = true

/-- The command that `popData` has at this place. -/
def carried : Place (ChannelCall CString) (Option CString) → List CString
  | .leaving .popData (some cmd) => [cmd]
  | _ => []

/-- The command that has left the queue and is not executed yet. -/
def hand (receiver : Receiver) (p : Place (ChannelCall CString) (Option CString)) :
    List CString :=
  match receiver with
  | .executing cmd => [cmd]
  | _ => carried p

/-- The commands that are pushed and not executed. -/
def waiting (s : Skvserver ι) : List CString :=
  hand s.receiver (s.channel.place none)++s.channel.data

omit [DecidableEq ι] in
theorem Sound.start : Sound (start : Skvserver ι) where
  channel := .new []
  places k := by cases k <;> rfl

variable {s t : Skvserver ι} {e : MonitorEvent (ChannelCall CString) (Option ι)}

omit [Fintype ι] in
theorem carried_move {c : Threads (List CString) (ChannelCall CString) (Option CString) (Option ι)}
    {i : Option ι} {p : Place (ChannelCall CString) (Option CString)}
    (hp : carried p = carried (c.place i)) :
    carried ((c.move i p).place none) = carried (c.place none) := by
  by_cases hi : none = i
  · obtain rfl := hi
    rw [Threads.move_self,hp]
  · rw [Threads.move_other c p hi]

omit [Fintype ι] in
theorem fits_move {b : Bool}
    {c : Threads (List CString) (ChannelCall CString) (Option CString) (Option ι)}
    {i : Option ι} {p : Place (ChannelCall CString) (Option CString)}
    (h : ∀ k, fits b k (c.place k) = true)
    (hp : fits b i (c.place i) = true → fits b i p = true) (k : Option ι) :
    fits b k ((c.move i p).place k) = true :=
  Threads.move_each (p := fun k q => fits b k q = true) h (hp (h i)) k

/-- What a step in the channel does to the queue: it stays, a thread pushes, or the receiver
takes its front. -/
theorem Sound.moved (h : Sound s)
    {c : Threads (List CString) (ChannelCall CString) (Option CString) (Option ι)}
    (hc : (MyChannel.monitor CString).Moved s.channel e c) (hun : e ≠ .unlock none)
    (hcall : ∀ i o, e ≠ .call i o) :
    (∀ k, fits (s.receiver = .popping) k (c.place k) = true) ∧
      (carried (c.place none)++c.data = carried (s.channel.place none)++s.channel.data ∨
        carried (c.place none) = carried (s.channel.place none) ∧
          ∃ cmd, c.data = s.channel.data++[cmd]) := by
  cases hc with
  | @call i o => exact absurd rfl (hcall i o)
  | @lock i o hi =>
    refine ⟨fits_move h.places fun hf => ?_,.inl ?_⟩
    · rw [hi] at hf
      cases i <;> cases o <;> exact hf
    · exact congrArg (·++s.channel.data) (carried_move (by rw [hi]; rfl))
  | @wait i o hi hready =>
    refine ⟨fits_move h.places fun hf => ?_,.inl ?_⟩
    · rw [hi] at hf
      cases o with
      | pushData cmd => cases hready
      | popData =>
        cases i with
        | none => exact hf
        | some i => cases hf
    · exact congrArg (·++s.channel.data) (carried_move (by rw [hi]; rfl))
  | @give i o hi hready hn =>
    cases o with
    | popData => cases hn
    | pushData cmd =>
      refine ⟨fits_move h.places fun hf => ?_,.inr ⟨carried_move (by rw [hi]; rfl),cmd,rfl⟩⟩
      rw [hi] at hf
      cases i with
      | none => cases hf
      | some i => rfl
  | @take i o hi hready hn =>
    cases o with
    | pushData cmd => cases hn
    | popData =>
      have hf := h.places i
      rw [hi] at hf
      cases i with
      | some i => cases hf
      | none =>
        cases hd : s.channel.data with
        | nil =>
          rw [hd] at hready
          cases hready
        | cons cmd que =>
          refine ⟨fits_move h.places fun hf => ?_,.inl ?_⟩
          · rw [hi] at hf
            exact hf
          · change carried ((s.channel.move none (.leaving .popData (some cmd))).place none)++que
              = _
            rw [Threads.move_self,hi]
            rfl
  | @silent i o r hi =>
    refine ⟨fits_move h.places fun hf => ?_,.inl ?_⟩
    · rw [hi] at hf
      cases i <;> cases o <;> first | exact hf | cases hf
    · have hf := h.places i
      rw [hi] at hf
      refine congrArg (·++s.channel.data) (carried_move ?_)
      rw [hi]
      cases o with
      | pushData cmd => rfl
      | popData => cases i <;> cases hf
  | @notify i j o p r hi hj =>
    have hf := h.places i
    rw [hi] at hf
    have hcarried : carried (.leaving o r) = carried (s.channel.place i) := by
      rw [hi]
      cases o with
      | pushData cmd => rfl
      | popData => cases i <;> cases hf
    have hne : j ≠ i := by
      intro hji
      rw [hji,hi] at hj
      cases hj
    have hj' : (s.channel.move i (.leaving o r)).place j = .asleep p := by
      rw [Threads.move_other _ _ hne,hj]
    refine ⟨fits_move (fits_move h.places fun hf => ?_) fun hf => ?_,.inl ?_⟩
    · rw [hi] at hf
      cases i <;> cases o <;> first | exact hf | cases hf
    · rw [hj'] at hf
      cases j <;> cases p <;> first | exact hf | cases hf
    · refine congrArg (·++s.channel.data) ?_
      rw [carried_move (by rw [hj']; rfl),carried_move hcarried]
  | @unlock i o r hi =>
    cases i with
    | none => exact absurd rfl hun
    | some i =>
      have hf := h.places (some i)
      rw [hi] at hf
      refine ⟨fits_move h.places fun _ => rfl,.inl ?_⟩
      have hcarried : carried (.leaving o r) = [] := by
        cases o with
        | pushData cmd => rfl
        | popData => cases hf
      exact congrArg (·++s.channel.data)
        (carried_move (c := s.channel) (p := .outside) (by rw [hi,hcarried]; rfl))
  | @spurious i o hi =>
    refine ⟨fits_move h.places fun hf => ?_,.inl ?_⟩
    · rw [hi] at hf
      cases i <;> cases o <;> first | exact hf | cases hf
    · exact congrArg (·++s.channel.data) (carried_move (by rw [hi]; rfl))

omit [Fintype ι] [DecidableEq ι] in
theorem fits_some (b b' : Bool) {i : ι} {p : Place (ChannelCall CString) (Option CString)}
    (h : fits b (some i) p = true) : fits b' (some i) p = true := by
  cases p with
  | outside => rfl
  | asleep o => cases h
  | entering o | inside o | signalling o r | leaving o r =>
    cases o with
    | pushData cmd => rfl
    | popData => cases h

omit [DecidableEq ι] in
theorem Sound.outside (h : Sound s) (hr : s.receiver ≠ .popping) :
    s.channel.place none = .outside := by
  have hf := h.places none
  rw [decide_eq_false hr] at hf
  cases hp : s.channel.place none with
  | outside => rfl
  | signalling o r =>
    rw [hp] at hf
    cases hf
  | entering o | inside o | asleep o =>
    rw [hp] at hf
    cases o <;> cases hf
  | leaving o r =>
    rw [hp] at hf
    cases o <;> cases r <;> cases hf

omit [Fintype ι] [DecidableEq ι] in
/-- Outside `popData` the thread carries nothing, so what is in hand is in one of two places. -/
theorem hand_eq_of_fits {receiver : Receiver} {p : Place (ChannelCall CString) (Option CString)}
    (h : fits (ι := ι) (receiver = .popping) none p = true) :
    hand receiver p = hand receiver .outside++carried p := by
  cases receiver with
  | popping => rfl
  | testing | finished => rfl
  | executing cmd =>
    cases p with
    | outside => rfl
    | leaving o r => cases o <;> cases r <;> first | rfl | cases h
    | entering | inside | asleep | signalling => rfl

omit [DecidableEq ι] in
/-- At the end of `popData` the receiver has the command in hand. -/
theorem Sound.unlocked (h : Sound s) {o : ChannelCall CString} {r : Option CString}
    (hi : s.channel.place none = .leaving o r) :
    ∃ cmd, o = .popData ∧ r = some cmd ∧ s.receiver = .popping := by
  have hf := h.places none
  rw [hi] at hf
  cases o with
  | pushData cmd => cases hf
  | popData =>
    cases r with
    | none => cases hf
    | some cmd => exact ⟨cmd,rfl,rfl,of_decide_eq_true hf⟩

theorem channel_step (ht : s.step (.channel e) = some t) :
    (∀ i o, e ≠ .call i o) ∧ ∃ c, (MyChannel.monitor CString).step s.channel e = some c ∧
      t = {s with channel := c, receiver := s.receiver.after s.channel e} := by
  cases e with
  | call => cases ht
  | lock | wait | act | notify | unlock | spurious =>
    obtain ⟨c,hc,rfl⟩ := Option.map_eq_some_iff.mp ht
    exact ⟨nofun,c,hc,rfl⟩

/-- A step of one thread in the channel: the queue with the command in hand stays or gets one
command behind it, and only the end of `popData` moves the receiver. -/
theorem Sound.step_channel (h : Sound s) (ht : s.step (.channel e) = some t) :
    Sound t ∧ t.kvDB = s.kvDB ∧ t.tobeDestroy = s.tobeDestroy ∧ t.joined = s.joined ∧
      (t.waiting = s.waiting ∨ ∃ cmd, t.waiting = s.waiting++[cmd]) ∧
      (e ≠ .unlock none ∧ t.receiver = s.receiver ∨
        e = .unlock none ∧ s.receiver = .popping ∧ ∃ cmd, t.receiver = .executing cmd) := by
  obtain ⟨hcall,c,hc,rfl⟩ := channel_step ht
  have hsound := h.channel.step MyChannel.stocked hc
  by_cases hun : e = .unlock none
  · obtain rfl := hun
    cases Monitor.step_moved hc with
    | @unlock _ o r hi =>
      obtain ⟨cmd,rfl,rfl,hpopping⟩ := h.unlocked hi
      have hafter : s.receiver.after s.channel (.unlock none) = .executing cmd := by
        simp [Receiver.after,hi]
      refine ⟨⟨hsound,fun k => ?_⟩,rfl,rfl,rfl,.inl ?_,.inr ⟨rfl,hpopping,cmd,hafter⟩⟩
      · cases k with
        | none => simp [hafter,Threads.move_self,fits]
        | some i =>
          have hk := fits_some _ false (h.places (some i))
          simpa [hafter,Threads.move_other] using hk
      · change hand (s.receiver.after s.channel (.unlock none)) _++s.channel.data = _
        rw [hafter,waiting,hpopping,hi]
        rfl
  · have hafter : s.receiver.after s.channel e = s.receiver := by
      cases e with
      | unlock i =>
        cases i with
        | none => exact absurd rfl hun
        | some i => rfl
      | call | lock | wait | act | notify | spurious => rfl
    obtain ⟨hplaces,hdata⟩ := h.moved (Monitor.step_moved hc) hun hcall
    refine ⟨⟨hsound,?_⟩,rfl,rfl,rfl,?_,.inl ⟨hun,hafter⟩⟩
    · rw [hafter]
      exact hplaces
    · change hand (s.receiver.after s.channel e) (c.place none)++c.data = s.waiting ∨
        ∃ cmd, hand (s.receiver.after s.channel e) (c.place none)++c.data = s.waiting++[cmd]
      rw [hafter,waiting,hand_eq_of_fits (h.places none),hand_eq_of_fits (hplaces none)]
      obtain hsame | ⟨hcarried,cmd,hmore⟩ := hdata
      · exact .inl (by rw [List.append_assoc,hsame,List.append_assoc])
      · exact .inr ⟨cmd,by rw [hcarried,hmore]; simp⟩

/-- A thread that begins a call leaves the queue alone. -/
theorem Sound.step_push (h : Sound s) {i : ι} {cmd : CString} (ht : s.step (.push i cmd) = some t) :
    Sound t ∧ t.kvDB = s.kvDB ∧ t.tobeDestroy = s.tobeDestroy ∧ t.joined = s.joined ∧
      t.waiting = s.waiting ∧ t.receiver = s.receiver := by
  obtain ⟨c,hc,rfl⟩ := Option.map_eq_some_iff.mp ht
  have hsound := h.channel.step MyChannel.stocked hc
  cases Monitor.step_moved hc with
  | call hi =>
    refine ⟨⟨hsound,fits_move h.places fun _ => rfl⟩,rfl,rfl,rfl,?_,rfl⟩
    change hand s.receiver ((s.channel.move (some i) _).place none)++s.channel.data = s.waiting
    rw [Threads.move_other _ _ (Option.some_ne_none i).symm]
    rfl

/-- The receiver tests `tobeDestroy_`: it ends, or goes into `popData`. -/
theorem Sound.step_test (h : Sound s) (ht : s.step .test = some t) :
    Sound t ∧ t.kvDB = s.kvDB ∧ t.tobeDestroy = s.tobeDestroy ∧ t.joined = s.joined ∧
      t.waiting = s.waiting ∧ s.receiver = .testing ∧
      t.receiver = if s.tobeDestroy then .finished else .popping := by
  obtain ⟨htesting,ht⟩ := Option.ite_none_right_eq_some.mp ht
  have hplace := h.outside (by rw [htesting]; nofun)
  split at ht
  · next hdestroy =>
    obtain rfl := Option.some.inj ht
    refine ⟨⟨h.channel,fun k => ?_⟩,rfl,rfl,rfl,?_,htesting,by rw [if_pos hdestroy]⟩
    · simpa [htesting] using h.places k
    · simp only [waiting,htesting]
      rfl
  · next hdestroy =>
    obtain ⟨c,hc,rfl⟩ := Option.map_eq_some_iff.mp ht
    have hsound := h.channel.step MyChannel.stocked hc
    cases Monitor.step_moved hc with
    | call hi =>
      refine ⟨⟨hsound,fun k => ?_⟩,rfl,rfl,rfl,?_,htesting,by rw [if_neg hdestroy]⟩
      · cases k with
        | none => simp [Threads.move_self,fits]
        | some i =>
          rw [Threads.move_other _ _ (Option.some_ne_none i)]
          exact fits_some _ _ (h.places (some i))
      · simp only [waiting,htesting,Threads.move_self,hplace]
        rfl

/-- The receiver executes the command it has in hand. -/
theorem Sound.step_execute (h : Sound s) (ht : s.step .execute = some t) :
    ∃ cmd, Sound t ∧ t.kvDB = s.kvDB.execute cmd ∧ t.tobeDestroy = s.tobeDestroy ∧
      t.joined = s.joined ∧ s.waiting = cmd::t.waiting ∧ s.receiver = .executing cmd ∧
      t.receiver = .testing := by
  cases hr : s.receiver with
  | executing cmd =>
    simp only [step,hr,Option.some.injEq] at ht
    obtain rfl := ht
    have hplace := h.outside (by rw [hr]; nofun)
    refine ⟨cmd,⟨h.channel,fun k => ?_⟩,rfl,rfl,rfl,?_,rfl,rfl⟩
    · simpa [hr] using h.places k
    · simp only [waiting,hr,hplace]
      rfl
  | testing | popping | finished => simp [step,hr] at ht

end Skvserver

/-- The channel and the store as the cluster has them: a push, and a turn of
`recieveMsgThread` in one step. -/
structure Channelled where
  que : List CString
  kvDB : Store
  popped : List CString

inductive ChannelledEvent
  | push (cmd : CString)
  | receive

namespace Channelled

def step (a : Channelled) : ChannelledEvent → Option Channelled
  | .push cmd => some {a with que := a.que++[cmd]}
  | .receive =>
    match a.que with
    | cmd::que => some ⟨que,a.kvDB.execute cmd,a.popped++[cmd]⟩
    | [] => none

def machine : Machine Channelled ChannelledEvent :=
  ⟨fun a => a = ⟨[],Store.initial,[]⟩,step⟩

theorem push_path {a : Channelled} (cmd : CString) :
    machine.Path Machine.always a {a with que := a.que++[cmd]} :=
  (Machine.Path.refl a).tail (e := .push cmd) trivial rfl

end Channelled

/-- The channel and the store of a server of the cluster. -/
def Server.channelled (server : Server) : Channelled :=
  ⟨server.node.channel.getD [],server.kvDB,server.popped⟩

theorem Cluster.receiveOne_channelled {c d : Cluster} {i : CString}
    (h : c.receiveOne i = some d) :
    (c.servers i).channelled.step .receive = some (d.servers i).channelled := by
  rw [Cluster.receiveOne] at h
  split at h
  · next cmd que hque =>
    obtain rfl := Option.some.inj h
    simp [Server.channelled,Channelled.step,hque]
  · cases h

/-- What is observed of a run: the commands executed, how many calls of `popData` have returned
since `tobeDestroy_` was set, and whether one was under way then. -/
structure Reception where
  executed : List CString
  late : Nat
  caught : Bool
  deriving DecidableEq

namespace Skvserver

variable {ι : Type*}

def observe (g : Reception) (s : Skvserver ι) : SkvserverEvent ι → Reception
  | .execute =>
    match s.receiver with
    | .executing cmd => {g with executed := g.executed++[cmd]}
    | _ => g
  | .channel (.unlock none) => if s.tobeDestroy then {g with late := g.late+1} else g
  | .destroy => {g with caught := s.receiver = .popping}
  | _ => g

variable [Fintype ι] [DecidableEq ι]

def machine (ι : Type*) [Fintype ι] [DecidableEq ι] :
    Machine (Skvserver ι × Reception) (SkvserverEvent ι) :=
  (⟨fun s => s = start,step⟩ : Machine (Skvserver ι) (SkvserverEvent ι)).withGhost observe

/-- The threads are where the atomic channel is, which still holds a command in hand. -/
structure Refines (p : Skvserver ι × Reception) (a : Channelled) : Prop where
  sound : Sound p.1
  que : a.que = p.1.waiting
  kvDB : a.kvDB = p.1.kvDB
  popped : a.popped = p.2.executed

variable {s t : Skvserver ι} {p q : Skvserver ι × Reception} {e : SkvserverEvent ι}
  {a : Channelled}

omit [Fintype ι] [DecidableEq ι] in
theorem observe_executed {g : Reception} (he : e ≠ .execute) :
    (observe g s e).executed = g.executed := by
  cases e with
  | execute => exact absurd rfl he
  | channel e =>
    cases e with
    | unlock i =>
      cases i with
      | none =>
        simp only [observe]
        split <;> rfl
      | some i => rfl
    | call | lock | wait | act | notify | spurious => rfl
  | push | test | destroy | join => rfl

/-- A step of the threads is a push, a turn of the receiver, or nothing for the atomic
channel. -/
theorem Refines.step (h : Refines p a) (ht : (machine ι).step p e = some q) :
    ∃ b, Channelled.machine.Path Machine.always a b ∧ Refines q b := by
  obtain ⟨s,g⟩ := p
  obtain ⟨t,g'⟩ := q
  obtain ⟨hstep,rfl⟩ := Machine.withGhost_step ht
  obtain ⟨que,kvDB,popped⟩ := a
  obtain ⟨hsound,rfl,rfl,rfl⟩ := h
  have hstay (hs : Sound t) (hw : t.waiting = s.waiting) (hk : t.kvDB = s.kvDB)
      (he : e ≠ .execute) : ∃ b, Channelled.machine.Path Machine.always
        ⟨s.waiting,s.kvDB,g.executed⟩ b ∧ Refines (t,observe g s e) b :=
    ⟨_,.refl _,⟨hs,hw.symm,hk.symm,(observe_executed he).symm⟩⟩
  cases e with
  | push i cmd =>
    obtain ⟨hs,hk,-,-,hw,-⟩ := hsound.step_push hstep
    exact hstay hs hw hk nofun
  | channel e =>
    obtain ⟨hs,hk,-,-,hw | ⟨cmd,hw⟩,-⟩ := hsound.step_channel hstep
    · exact hstay hs hw hk nofun
    · refine ⟨_,Channelled.push_path cmd,⟨hs,hw.symm,hk.symm,?_⟩⟩
      exact (observe_executed (e := .channel e) nofun).symm
  | test =>
    obtain ⟨hs,hk,-,-,hw,-⟩ := hsound.step_test hstep
    exact hstay hs hw hk nofun
  | execute =>
    obtain ⟨cmd,hs,hk,-,-,hw,hr,-⟩ := hsound.step_execute hstep
    refine ⟨⟨t.waiting,s.kvDB.execute cmd,g.executed++[cmd]⟩,?_,⟨hs,rfl,hk.symm,?_⟩⟩
    · exact (Machine.Path.refl _).tail (e := .receive) trivial (by
        simp [Channelled.machine,Channelled.step,hw])
    · change g.executed++[cmd] = (observe g s .execute).executed
      have hr' : s.receiver = .executing cmd := hr
      simp [observe,hr']
  | destroy =>
    obtain ⟨-,hstep⟩ := Option.ite_none_left_eq_some.mp hstep
    obtain rfl := Option.some.inj hstep
    exact hstay ⟨hsound.channel,hsound.places⟩ rfl rfl nofun
  | join =>
    obtain ⟨-,hstep⟩ := Option.ite_none_right_eq_some.mp hstep
    obtain rfl := Option.some.inj hstep
    exact hstay ⟨hsound.channel,hsound.places⟩ rfl rfl nofun

omit [DecidableEq ι] in
theorem Refines.start : Refines ((start : Skvserver ι),⟨[],0,false⟩) ⟨[],Store.initial,[]⟩ :=
  ⟨.start,rfl,rfl,rfl⟩

/-- How the destructor and the receiver meet: a call of `popData` that is under way when
`tobeDestroy_` is set is the only one that still returns. -/
structure Counted (p : Skvserver ι × Reception) : Prop where
  sound : Sound p.1
  early : p.1.tobeDestroy = false → p.2.caught = false
  free : p.1.tobeDestroy = true → p.2.caught = false → p.1.receiver ≠ .popping
  late : p.2.late = if p.2.caught = true ∧ p.1.receiver ≠ .popping then 1 else 0
  joined : p.1.joined = true → p.1.receiver = .finished

omit [DecidableEq ι] in
theorem Counted.same {g : Reception} (h : Counted (s,g)) (hs : Sound t)
    (hd : t.tobeDestroy = s.tobeDestroy) (hj : t.joined = s.joined)
    (hr : t.receiver = s.receiver) : Counted (t,g) where
  sound := hs
  early := hd ▸ h.early
  free := by
    change t.tobeDestroy = true → g.caught = false → t.receiver ≠ .popping
    rw [hd,hr]
    exact h.free
  late := by
    change g.late = if g.caught = true ∧ t.receiver ≠ .popping then 1 else 0
    rw [hr]
    exact h.late
  joined := by
    change t.joined = true → t.receiver = .finished
    rw [hj,hr]
    exact h.joined

omit [DecidableEq ι] in
/-- The receiver goes on between two places outside `popData`, or into it before the flag. -/
theorem Counted.move {g g' : Reception} (h : Counted (s,g)) (hs : Sound t)
    (hd : t.tobeDestroy = s.tobeDestroy) (hj : t.joined = s.joined)
    (hold : s.receiver ≠ .popping ∧ s.receiver ≠ .finished)
    (hnew : t.receiver = .popping → s.tobeDestroy = false)
    (hl : g'.late = g.late) (hc : g'.caught = g.caught) : Counted (t,g') where
  sound := hs
  early := by
    change t.tobeDestroy = false → g'.caught = false
    rw [hd,hc]
    exact h.early
  free hset _ hpop := by
    have hunset := hnew hpop
    rw [← hd] at hunset
    rw [hunset] at hset
    cases hset
  late := by
    have hlate := h.late
    simp only [hold.1,ne_eq,not_false_eq_true,and_true] at hlate
    change g'.late = if g'.caught = true ∧ t.receiver ≠ .popping then 1 else 0
    rw [hl,hlate,hc]
    by_cases hpop : t.receiver = .popping
    · rw [h.early (hnew hpop)]
      simp
    · simp [hpop]
  joined hjoined := by
    have hfinished := h.joined (hj ▸ hjoined)
    exact absurd hfinished hold.2

theorem Counted.step (h : Counted p) (ht : (machine ι).step p e = some q) : Counted q := by
  obtain ⟨s,g⟩ := p
  obtain ⟨t,g'⟩ := q
  obtain ⟨hstep,rfl⟩ := Machine.withGhost_step ht
  change s.step e = some t at hstep
  change Counted (t,observe g s e)
  have hsound : Sound s := h.sound
  cases e with
  | push i cmd =>
    obtain ⟨hs,-,hd,hj,-,hr⟩ := hsound.step_push hstep
    exact h.same hs hd hj hr
  | channel e =>
    obtain ⟨hs,-,hd,hj,-,⟨hun,hr⟩ | ⟨rfl,hpop,cmd,hr⟩⟩ := hsound.step_channel hstep
    · have hobserve : observe g s (.channel e) = g := by
        cases e with
        | unlock i =>
          cases i with
          | none => exact absurd rfl hun
          | some i => rfl
        | call | lock | wait | act | notify | spurious => rfl
      rw [hobserve]
      exact h.same hs hd hj hr
    · have hlate := h.late
      simp only [hpop,ne_eq,not_true_eq_false,and_false,if_false] at hlate
      have hnone : t.joined ≠ true := by
        intro hjoined
        have hfinished := h.joined (hj ▸ hjoined)
        exact nomatch hpop.symm.trans hfinished
      cases hset : s.tobeDestroy with
      | false =>
        have hcaught := h.early hset
        have hobserve : observe g s (.channel (.unlock none)) = g := by simp [observe,hset]
        rw [hobserve]
        exact {
          sound := hs
          early := fun _ => hcaught
          free := fun hd' _ => by
            rw [hd,hset] at hd'
            cases hd'
          late := by
            change g.late = if g.caught = true ∧ _ then 1 else 0
            rw [hlate,hcaught]
            simp
          joined := fun hjoined => absurd hjoined hnone }
      | true =>
        have hcaught : g.caught = true := by
          cases hc : g.caught with
          | true => rfl
          | false => exact absurd hpop (h.free hset hc)
        have hobserve : observe g s (.channel (.unlock none)) = {g with late := g.late+1} := by
          simp [observe,hset]
        rw [hobserve]
        exact {
          sound := hs
          early := fun hd' => by
            rw [hd,hset] at hd'
            cases hd'
          free := fun _ hc => by
            rw [hcaught] at hc
            cases hc
          late := by
            change g.late+1 = if g.caught = true ∧ t.receiver ≠ .popping then 1 else 0
            rw [hlate,hcaught,hr]
            simp
          joined := fun hjoined => absurd hjoined hnone }
  | test =>
    obtain ⟨hs,-,hd,hj,-,htesting,hr⟩ := hsound.step_test hstep
    refine h.move hs hd hj ?_ (fun hpop => ?_) rfl rfl
    · rw [htesting]
      exact ⟨nofun,nofun⟩
    · rw [hr] at hpop
      split at hpop
      · cases hpop
      · next hunset => exact Bool.eq_false_iff.mpr hunset
  | execute =>
    obtain ⟨cmd,hs,-,hd,hj,-,hr,htesting⟩ := hsound.step_execute hstep
    refine h.move hs hd hj ?_ (fun hpop => ?_) ?_ ?_
    · rw [hr]
      exact ⟨nofun,nofun⟩
    · rw [htesting] at hpop
      cases hpop
    · simp [observe,show s.receiver = .executing cmd from hr]
    · simp [observe,show s.receiver = .executing cmd from hr]
  | destroy =>
    obtain ⟨hunset,hstep⟩ := Option.ite_none_left_eq_some.mp hstep
    obtain rfl := Option.some.inj hstep
    have hlate := h.late
    have hearly := h.early (Bool.eq_false_iff.mpr hunset)
    rw [hearly] at hlate
    exact {
      sound := ⟨h.sound.channel,h.sound.places⟩
      early := nofun
      free := fun _ hfree => of_decide_eq_false hfree
      late := by
        change g.late = _
        rw [hlate]
        by_cases hpop : s.receiver = .popping <;> simp [observe,hpop]
      joined := h.joined }
  | join =>
    obtain ⟨hjoin,hstep⟩ := Option.ite_none_right_eq_some.mp hstep
    obtain rfl := Option.some.inj hstep
    exact ⟨⟨h.sound.channel,h.sound.places⟩,h.early,h.free,h.late,fun _ => hjoin.2⟩

/-- `recieveMsgThread` waits for a command, and there is none and no thread that pushes. -/
structure Idle (s : Skvserver ι) : Prop where
  popping : s.receiver = .popping
  waiting : s.waiting = []
  pushers : ∀ i, s.channel.place (some i) = .outside

def noPush (_ : Skvserver ι × Reception) : SkvserverEvent ι → Prop
  | .push .. => False
  | _ => True

omit [Fintype ι] [DecidableEq ι] in
theorem Idle.data (h : Idle s) :
    carried (s.channel.place none) = [] ∧ s.channel.data = [] := by
  have hw := h.waiting
  rw [Skvserver.waiting,h.popping] at hw
  exact List.append_eq_nil_iff.mp hw

omit [DecidableEq ι] in
/-- The only thread inside the channel is the receiver, with nothing in hand. -/
theorem Idle.place (h : Idle s) (hsound : Sound s) {i : Option ι}
    {x : Place (ChannelCall CString) (Option CString)} (hi : s.channel.place i = x)
    (hx : x ≠ .outside) :
    i = none ∧ (x = .entering .popData ∨ x = .inside .popData ∨ x = .asleep .popData) := by
  cases i with
  | some i => exact absurd (hi.symm.trans (h.pushers i)) hx
  | none =>
    have hf := hsound.places none
    have hnone := h.data.1
    rw [hi] at hf hnone
    refine ⟨rfl,?_⟩
    cases x with
    | outside => exact absurd rfl hx
    | signalling o r => cases hf
    | entering o | inside o | asleep o =>
      cases o with
      | pushData cmd => cases hf
      | popData => simp
    | leaving o r => cases o <;> cases r <;> first | cases hf | cases hnone

omit [Fintype ι] in
theorem Idle.move (h : Idle s) {x : Place (ChannelCall CString) (Option CString)}
    (hx : carried x = []) (owner : Option (Option ι)) :
    Idle {s with channel := {s.channel.move none x with owner := owner}} where
  popping := h.popping
  waiting := by
    change hand s.receiver ((s.channel.move none x).place none)++s.channel.data = []
    rw [h.popping,h.data.2,Threads.move_self,List.append_nil]
    exact hx
  pushers i := by
    change (s.channel.move none x).place (some i) = .outside
    rw [Threads.move_other _ _ (Option.some_ne_none i)]
    exact h.pushers i

theorem Idle.step (h : Idle s) (hsound : Sound s) (hok : noPush p e) (ht : s.step e = some t) :
    Idle t := by
  cases e with
  | push => exact hok.elim
  | test =>
    obtain ⟨-,-,-,-,-,htesting,-⟩ := hsound.step_test ht
    exact nomatch h.popping.symm.trans htesting
  | execute =>
    obtain ⟨cmd,-,-,-,-,-,hr,-⟩ := hsound.step_execute ht
    exact nomatch h.popping.symm.trans hr
  | destroy =>
    obtain ⟨-,ht⟩ := Option.ite_none_left_eq_some.mp ht
    obtain rfl := Option.some.inj ht
    exact ⟨h.popping,h.waiting,h.pushers⟩
  | join =>
    obtain ⟨-,ht⟩ := Option.ite_none_right_eq_some.mp ht
    obtain rfl := Option.some.inj ht
    exact ⟨h.popping,h.waiting,h.pushers⟩
  | channel e =>
    obtain ⟨hcall,c,hc,rfl⟩ := channel_step ht
    cases Monitor.step_moved hc with
    | call hi => cases ht
    | lock hi =>
      obtain ⟨rfl,ho⟩ := h.place hsound hi nofun
      exact h.move rfl _
    | wait hi hready =>
      obtain ⟨rfl,ho⟩ := h.place hsound hi nofun
      exact h.move rfl _
    | give hi _ hn =>
      obtain ⟨rfl,ho⟩ := h.place hsound hi nofun
      obtain ho | ho | ho := ho <;> cases ho
      cases hn
    | take hi hready hn =>
      obtain ⟨rfl,ho⟩ := h.place hsound hi nofun
      obtain ho | ho | ho := ho <;> cases ho
      rw [h.data.2] at hready
      cases hready
    | silent hi =>
      obtain ⟨-,ho⟩ := h.place hsound hi nofun
      obtain ho | ho | ho := ho <;> cases ho
    | notify hi hj =>
      obtain ⟨-,ho⟩ := h.place hsound hi nofun
      obtain ho | ho | ho := ho <;> cases ho
    | unlock hi =>
      obtain ⟨-,ho⟩ := h.place hsound hi nofun
      obtain ho | ho | ho := ho <;> cases ho
    | spurious hi =>
      obtain ⟨rfl,ho⟩ := h.place hsound hi nofun
      exact h.move rfl _

/-- The destructor waits for a `popData` that is under way when it sets `tobeDestroy_`: at most
that one still takes a command, `join` returns only after it has, and so never where no command
comes. -/
theorem destructor_waits (h : (machine ι).Path Machine.always (start,⟨[],0,false⟩) p) :
    p.2.late ≤ 1 ∧
    (p.1.joined = true → p.2.late = if p.2.caught then 1 else 0) ∧
    (Idle p.1 → ∀ q, (machine ι).Path noPush p q → q.1.joined = false) := by
  have hp : Counted p := h.invariant (I := Counted) (fun _ _ _ hi _ ht => hi.step ht)
    ⟨.start,fun _ => rfl,nofun,rfl,nofun⟩
  refine ⟨?_,fun hjoined => ?_,fun hidle q hq => ?_⟩
  · rw [hp.late]
    split <;> omega
  · rw [hp.late,hp.joined hjoined]
    simp
  · have hend := hq.invariant (I := fun q => Counted q ∧ Idle q.1)
      (fun _ _ _ hi hok ht =>
        ⟨hi.1.step ht,hi.2.step hi.1.sound hok (Machine.withGhost_step ht).1⟩) ⟨hp,hidle⟩
    refine Bool.eq_false_iff.mpr fun hjoined => ?_
    exact nomatch hend.2.popping.symm.trans (hend.1.joined hjoined)

theorem destructor_waits_one : ∃ p : Skvserver Bool × Reception, p.1.joined = true ∧
    p.2.caught = true ∧ p.2.executed = [['p']] ∧ p.2.late ≤ 1 ∧
    (p.1.joined = true → p.2.late = if p.2.caught then 1 else 0) := by
  obtain ⟨p,hp,hq⟩ := Machine.exec_any (machine Bool) Machine.always (start,⟨[],0,false⟩)
    [.test,.channel (.lock none),.channel (.wait none),.destroy,
      .push true ['p'],.channel (.lock (some true)),.channel (.act (some true)),
      .channel (.notify (some true) (some none)),.channel (.unlock (some true)),
      .push true ['q'],.channel (.lock (some true)),.channel (.act (some true)),
      .channel (.notify (some true) none),.channel (.unlock (some true)),
      .channel (.lock none),.channel (.act none),.channel (.unlock none),
      .execute,.test,.join]
    (fun p => p.1.joined = true ∧ p.2.caught = true ∧ p.2.executed = [['p']])
    (by decide +kernel)
  obtain ⟨hjoined,hcaught,hexecuted⟩ := of_decide_eq_true hq
  have h := destructor_waits hp
  exact ⟨p,hjoined,hcaught,hexecuted,h.1,h.2.1⟩

end Skvserver

end SRaftMuduo
