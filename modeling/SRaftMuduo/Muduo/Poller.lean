import SRaftMuduo.Framework.Machine
import Mathlib.Logic.Function.Basic

namespace SRaftMuduo

/-- `EPOLLIN`, `EPOLLPRI`, `EPOLLOUT`, `EPOLLERR` and `EPOLLHUP`. -/
def EPOLLIN : BitVec 32 := 1
def EPOLLPRI : BitVec 32 := 2
def EPOLLOUT : BitVec 32 := 4
def EPOLLERR : BitVec 32 := 8
def EPOLLHUP : BitVec 32 := 16

def kNoneEvent : BitVec 32 := 0
def kReadEvent : BitVec 32 := EPOLLIN ||| EPOLLPRI
def kWriteEvent : BitVec 32 := EPOLLOUT

def kNew : Int := -1
def kAdded : Int := 1
def kDeleted : Int := 2

/-- The members of a `Channel` that the poller and the connection use. -/
structure Channel where
  event : BitVec 32
  index : Int
  deriving DecidableEq

namespace Channel

def new : Channel := ⟨kNoneEvent,kNew⟩

def IsNoneEvent (c : Channel) : Bool := c.event = kNoneEvent
def IsReading (c : Channel) : Bool := c.event &&& kReadEvent ≠ 0
def IsWriting (c : Channel) : Bool := c.event &&& kWriteEvent ≠ 0

def EnableRead (c : Channel) : Channel := {c with event := c.event ||| kReadEvent}
def DisableRead (c : Channel) : Channel := {c with event := c.event &&& ~~~kReadEvent}
def EnableWrite (c : Channel) : Channel := {c with event := c.event ||| kWriteEvent}
def DisableWrite (c : Channel) : Channel := {c with event := c.event &&& ~~~kWriteEvent}
def DisableAll (c : Channel) : Channel := {c with event := kNoneEvent}

/-- What `update` does to the index. -/
def update (c : Channel) : Channel :=
  if c.index = kNew ∨ c.index = kDeleted then {c with index := kAdded}
  else if c.IsNoneEvent then {c with index := kDeleted}
  else c

/-- What `remove` does to the index. -/
def remove (c : Channel) : Channel := {c with index := kNew}

variable (c : Channel)

theorem update_IsWriting : c.update.IsWriting = c.IsWriting := by
  unfold update
  split_ifs <;> rfl

theorem EnableWrite_IsWriting : c.EnableWrite.IsWriting = true := by
  have h : (c.event ||| kWriteEvent) &&& kWriteEvent ≠ 0 := by
    rw [BitVec.and_or_distrib_right]
    intro h
    exact absurd (BitVec.or_eq_zero_iff.mp h).2 (by decide)
  exact decide_eq_true h

theorem DisableWrite_IsWriting : c.DisableWrite.IsWriting = false := by
  have h : (c.event &&& ~~~kWriteEvent) &&& kWriteEvent = 0 := by
    rw [BitVec.and_assoc,show ~~~kWriteEvent &&& kWriteEvent = 0 by decide]
    exact BitVec.and_zero
  exact decide_eq_false (not_not_intro h)

theorem EnableRead_IsWriting : c.EnableRead.IsWriting = c.IsWriting := by
  have h : (c.event ||| kReadEvent) &&& kWriteEvent = c.event &&& kWriteEvent := by
    rw [BitVec.and_or_distrib_right,show kReadEvent &&& kWriteEvent = 0 by decide]
    exact BitVec.or_zero
  simp only [IsWriting,EnableRead,h]

end Channel

inductive CtlOp
  | add
  | mod
  | del
  deriving DecidableEq

/-- `epoll_ctl` on the interest list; `none` stands for `EEXIST` and `ENOENT`. -/
def epollCtl (kernel : Int → Option (BitVec 32)) (operation : CtlOp) (fd : Int)
    (events : BitVec 32) : Option (Int → Option (BitVec 32)) :=
  match operation, kernel fd with
  | .add, none | .mod, some _ => some (Function.update kernel fd (some events))
  | .del, some _ => some (Function.update kernel fd none)
  | _, _ => none

/-- The poller with its channels and the interest list of the kernel. `issued` records each
call of `epoll_ctl` and whether the fd was registered then. -/
structure EPollPoller (C : Type*) where
  channel : C → Channel
  channels : Int → Option C
  kernel : Int → Option (BitVec 32)
  issued : List (CtlOp × Bool)

/-- An operation of a channel that reaches the poller. -/
inductive PollerOp (C : Type*)
  | EnableRead (c : C)
  | DisableRead (c : C)
  | EnableWrite (c : C)
  | DisableWrite (c : C)
  | DisableAll (c : C)
  | remove (c : C)

/-- The channel an operation is called on. -/
def PollerOp.channel {C : Type*} : PollerOp C → C
  | .EnableRead c | .DisableRead c | .EnableWrite c | .DisableWrite c | .DisableAll c
  | .remove c => c

namespace EPollPoller

variable {C : Type*}

def new : EPollPoller C := ⟨fun _ => .new,fun _ => none,fun _ => none,[]⟩

variable (fd : C → Int)

def record (p : EPollPoller C) (c : C) (fd : C → Int) (operation : CtlOp) : EPollPoller C :=
  {p with issued := p.issued++[(operation,(p.kernel (fd c)).isSome)]}

/-- A failed `EPOLL_CTL_DEL` is logged, any other failure ends the process. -/
def Update (p : EPollPoller C) (operation : CtlOp) (c : C) : Option (EPollPoller C) :=
  let p' := p.record c fd operation
  match epollCtl p.kernel operation (fd c) (p.channel c).event with
  | some kernel => some {p' with kernel := kernel}
  | none => if operation = .del then some p' else none

/-- The call was issued for an fd in the state it needs. -/
def Fit (call : CtlOp × Bool) : Prop := call.2 = true ↔ call.1 ≠ .add

/-- `p'` differs from `p` only at the channel `c`. -/
structure Frame (p p' : EPollPoller C) (c : C) : Prop where
  channel : ∀ d ≠ c, p'.channel d = p.channel d
  kernel : ∀ f ≠ fd c, p'.kernel f = p.kernel f
  channels : ∀ f ≠ fd c, p'.channels f = p.channels f
  issued : ∀ call ∈ p'.issued, call ∈ p.issued ∨ Fit call

/-- The index of `c` says whether its fd is registered and whether `channels_` holds it. -/
structure Tracked (p : EPollPoller C) (c : C) : Prop where
  index : (p.channel c).index = kNew ∨ (p.channel c).index = kAdded ∨
    (p.channel c).index = kDeleted
  registered : (p.kernel (fd c)).isSome = true ↔ (p.channel c).index = kAdded
  channels : p.channels (fd c) = if (p.channel c).index = kNew then none else some c

/-- A registered fd has the events of its channel as its mask. -/
def Masked (p : EPollPoller C) (c : C) : Prop :=
  ∀ mask, p.kernel (fd c) = some mask → mask = (p.channel c).event

variable {fd} {p p' q : EPollPoller C} {c d : C} {operation : CtlOp}

theorem Tracked.new (c : C) : Tracked fd new c :=
  ⟨.inl rfl,by simp [EPollPoller.new,Channel.new,kNew,kAdded],rfl⟩

theorem Frame.trans (h : Frame fd p p' c) (k : Frame fd p' q c) : Frame fd p q c where
  channel d hd := (k.channel d hd).trans (h.channel d hd)
  kernel f hf := (k.kernel f hf).trans (h.kernel f hf)
  channels f hf := (k.channels f hf).trans (h.channels f hf)
  issued call hc := by
    cases k.issued call hc with
    | inl hp => exact h.issued call hp
    | inr hfit => exact .inr hfit

/-- The other channels have other fds, so what holds of them stays. -/
theorem Frame.tracked (h : Frame fd p p' c) (hfd : fd.Injective) (hd : d ≠ c)
    (k : Tracked fd p d) : Tracked fd p' d := by
  have hne : fd d ≠ fd c := hfd.ne hd
  have hch := h.channel d hd
  constructor
  · rw [hch]
    exact k.index
  · rw [hch,h.kernel _ hne]
    exact k.registered
  · rw [hch,h.channels _ hne]
    exact k.channels

theorem Frame.masked (h : Frame fd p p' c) (hfd : fd.Injective) (hd : d ≠ c)
    (k : Masked fd p d) : Masked fd p' d := by
  intro mask hm
  rw [h.kernel _ (hfd.ne hd)] at hm
  rw [h.channel d hd]
  exact k mask hm

/-- A call that fits is answered by the kernel. -/
theorem Update_fit (p : EPollPoller C) (fd : C → Int) (c : C) (operation : CtlOp)
    (h : Fit (operation,(p.kernel (fd c)).isSome)) :
    ∃ p', p.Update fd operation c = some p' ∧ Frame fd p p' c ∧ p'.channel = p.channel ∧
      p'.channels = p.channels ∧
      p'.kernel (fd c) = if operation = .del then none else some (p.channel c).event := by
  have hctl : epollCtl p.kernel operation (fd c) (p.channel c).event =
      some (Function.update p.kernel (fd c)
        (if operation = .del then none else some (p.channel c).event)) := by
    unfold Fit at h
    unfold epollCtl
    cases hk : p.kernel (fd c) <;> cases operation <;> simp [hk] at h ⊢
  rw [Update,hctl]
  refine ⟨_,rfl,⟨fun _ _ => rfl,fun _ hf => Function.update_of_ne hf ..,fun _ _ => rfl,?_⟩,rfl,rfl,
    Function.update_self ..⟩
  intro call hcall
  have hmem : call ∈ p.issued++[(operation,(p.kernel (fd c)).isSome)] := hcall
  cases List.mem_append.mp hmem with
  | inl hold => exact .inl hold
  | inr hnew =>
    obtain rfl := List.mem_singleton.mp hnew
    exact .inr h

variable [DecidableEq C] (fd)

def HasChannel (p : EPollPoller C) (c : C) : Bool := p.channels (fd c) = some c

def setChannel (p : EPollPoller C) (c : C) (ch : Channel) : EPollPoller C :=
  {p with channel := Function.update p.channel c ch}

def setIndex (p : EPollPoller C) (c : C) (index : Int) : EPollPoller C :=
  p.setChannel c {p.channel c with index := index}

def UpdateChannel (p : EPollPoller C) (c : C) : Option (EPollPoller C) :=
  let index := (p.channel c).index
  if index = kNew ∨ index = kDeleted then
    let p := if index = kNew then
        {p with channels := Function.update p.channels (fd c) (some c)}
      else p
    (p.setIndex c kAdded).Update fd .add c
  else if (p.channel c).IsNoneEvent then
    (p.Update fd .del c).map fun p => p.setIndex c kDeleted
  else p.Update fd .mod c

def RemoveChannel (p : EPollPoller C) (c : C) : Option (EPollPoller C) :=
  let p := {p with channels := Function.update p.channels (fd c) none}
  let p := if (p.channel c).index = kAdded then p.Update fd .del c else some p
  p.map fun p => p.setIndex c kNew

/-- A channel changes its events and calls `update`. -/
def change (p : EPollPoller C) (c : C) (f : Channel → Channel) : Option (EPollPoller C) :=
  (p.setChannel c (f (p.channel c))).UpdateChannel fd c

def step (p : EPollPoller C) : PollerOp C → Option (EPollPoller C)
  | .EnableRead c => p.change fd c .EnableRead
  | .DisableRead c => p.change fd c .DisableRead
  | .EnableWrite c => p.change fd c .EnableWrite
  | .DisableWrite c => p.change fd c .DisableWrite
  | .DisableAll c => p.change fd c .DisableAll
  | .remove c => p.RemoveChannel fd c

def machine : Machine (EPollPoller C) (PollerOp C) := ⟨fun p => p = new,step fd⟩

variable {fd} {op : PollerOp C}

theorem setChannel_frame (p : EPollPoller C) (c : C) (ch : Channel) :
    Frame fd p (p.setChannel c ch) c :=
  ⟨fun _ hd => Function.update_of_ne hd ..,fun _ _ => rfl,fun _ _ => rfl,fun _ h => .inl h⟩

theorem setChannel_channel (p : EPollPoller C) (c : C) (ch : Channel) :
    (p.setChannel c ch).channel c = ch := Function.update_self ..

theorem setIndex_channel (p : EPollPoller C) (c : C) (index : Int) :
    (p.setIndex c index).channel c = {p.channel c with index := index} :=
  setChannel_channel ..

/-- Setting the events of a channel, or its index to what the other places say, keeps
them in step. -/
theorem Tracked.setChannel {ch : Channel}
    (hi : ch.index = kNew ∨ ch.index = kAdded ∨ ch.index = kDeleted)
    (hr : (p.kernel (fd c)).isSome = true ↔ ch.index = kAdded)
    (hc : p.channels (fd c) = if ch.index = kNew then none else some c) :
    Tracked fd (p.setChannel c ch) c := by
  constructor
  · rw [setChannel_channel]
    exact hi
  · rw [setChannel_channel]
    exact hr
  · rw [setChannel_channel]
    exact hc

theorem added_ne_new : kAdded ≠ kNew := by decide

theorem deleted_ne_added : kDeleted ≠ kAdded := by decide

theorem deleted_ne_new : kDeleted ≠ kNew := by decide

/-- A channel whose fd is not registered is added. -/
theorem Tracked.add (hr : p.kernel (fd c) = none) (hc : p.channels (fd c) = some c) :
    ∃ p', (p.setIndex c kAdded).Update fd .add c = some p' ∧ Frame fd p p' c ∧
      Tracked fd p' c ∧ Masked fd p' c := by
  have hnone : (p.setIndex c kAdded).kernel (fd c) = none := hr
  obtain ⟨p',hp',hframe,hch,hchs,hk⟩ := Update_fit (p.setIndex c kAdded) fd c .add
    (by simp [Fit,hnone])
  have hc' : p'.channel c = {p.channel c with index := kAdded} := by
    rw [hch,setIndex_channel]
  have hk' : p'.kernel (fd c) = some (p'.channel c).event := by
    rw [hk,hch]
    rfl
  refine ⟨p',hp',(setChannel_frame ..).trans hframe,⟨?_,?_,?_⟩,?_⟩
  · rw [hc']
    exact .inr (.inl rfl)
  · rw [hk',hc']
    simp
  · rw [hchs,hc',if_neg added_ne_new]
    exact hc
  · intro mask hm
    rw [hk'] at hm
    exact (Option.some.inj hm).symm

/-- A channel whose fd is registered is deleted, and its index set to `index`. -/
theorem Tracked.del {index : Int} (hi : index = kNew ∨ index = kDeleted)
    (hr : (p.kernel (fd c)).isSome = true)
    (hc : p.channels (fd c) = if index = kNew then none else some c) :
    ∃ p', (p.Update fd .del c).map (fun p => p.setIndex c index) = some p' ∧
      Frame fd p p' c ∧ Tracked fd p' c ∧ Masked fd p' c := by
  obtain ⟨p1,hp1,hframe,hch,hchs,hk⟩ := Update_fit p fd c .del
    (by simp [Fit,hr])
  have hk1 : p1.kernel (fd c) = none := hk
  refine ⟨p1.setIndex c index,by rw [hp1]; rfl,hframe.trans (setChannel_frame ..),?_,?_⟩
  · apply Tracked.setChannel
    · cases hi with
      | inl hi => exact .inl hi
      | inr hi => exact .inr (.inr hi)
    · rw [hk1]
      cases hi with
      | inl hi => simp [hi,added_ne_new.symm]
      | inr hi => simp [hi,deleted_ne_added]
    · rw [hchs]
      exact hc
  · intro mask hm
    have hnone : (p1.setIndex c index).kernel (fd c) = none := hk1
    rw [hnone] at hm
    cases hm

theorem Tracked.UpdateChannel (h : Tracked fd p c) :
    ∃ p', p.UpdateChannel fd c = some p' ∧ Frame fd p p' c ∧ Tracked fd p' c ∧
      Masked fd p' c := by
  have hreg := h.registered
  have hchs := h.channels
  unfold EPollPoller.UpdateChannel
  dsimp only
  obtain hi | hi | hi := h.index
  · -- `kNew`
    have hr : p.kernel (fd c) = none := by simpa [hi,added_ne_new.symm] using hreg
    rw [if_pos (.inl hi),if_pos hi]
    let p1 := {p with channels := Function.update p.channels (fd c) (some c)}
    have hframe : Frame fd p p1 c :=
      ⟨fun _ _ => rfl,fun _ _ => rfl,fun _ hf => Function.update_of_ne hf ..,fun _ h => .inl h⟩
    obtain ⟨p',hp',hf,ht,hm⟩ := Tracked.add (p := p1) (c := c) hr (Function.update_self ..)
    exact ⟨p',hp',hframe.trans hf,ht,hm⟩
  · -- `kAdded`
    have hr : (p.kernel (fd c)).isSome = true := hreg.mpr hi
    rw [hi,if_neg added_ne_new] at hchs
    rw [if_neg (by simp [hi,added_ne_new,deleted_ne_added.symm])]
    split_ifs with hnone
    · exact Tracked.del (.inr rfl) hr (by rw [if_neg deleted_ne_new]; exact hchs)
    · obtain ⟨p',hp',hf,hch,hcs,hk⟩ := Update_fit p fd c .mod
        (by simp [Fit,hr])
      have hk' : p'.kernel (fd c) = some (p'.channel c).event := by
        rw [hk,hch]
        rfl
      refine ⟨p',hp',hf,⟨?_,?_,?_⟩,?_⟩
      · rw [hch]
        exact .inr (.inl hi)
      · rw [hk',hch,hi]
        simp
      · rw [hcs,hch,hi,if_neg added_ne_new]
        exact hchs
      · intro mask hm
        rw [hk'] at hm
        exact (Option.some.inj hm).symm
  · -- `kDeleted`
    have hr : p.kernel (fd c) = none := by simpa [hi,deleted_ne_added] using hreg
    rw [hi,if_neg deleted_ne_new] at hchs
    rw [if_pos (.inr hi),if_neg (by rw [hi]; exact deleted_ne_new)]
    exact Tracked.add hr hchs

theorem Tracked.RemoveChannel (h : Tracked fd p c) :
    ∃ p', p.RemoveChannel fd c = some p' ∧ Frame fd p p' c ∧ Tracked fd p' c ∧
      Masked fd p' c := by
  have hreg := h.registered
  let p1 := {p with channels := Function.update p.channels (fd c) none}
  have hframe : Frame fd p p1 c :=
    ⟨fun _ _ => rfl,fun _ _ => rfl,fun _ hf => Function.update_of_ne hf ..,fun _ h => .inl h⟩
  have hcs : p1.channels (fd c) = if kNew = kNew then none else some c := by
    rw [if_pos rfl]
    exact Function.update_self ..
  unfold EPollPoller.RemoveChannel
  dsimp only
  by_cases hi : (p.channel c).index = kAdded
  · obtain ⟨p',hp',hf,ht,hm⟩ := Tracked.del (p := p1) (c := c) (.inl rfl) (hreg.mpr hi) hcs
    refine ⟨p',?_,hframe.trans hf,ht,hm⟩
    rw [if_pos hi]
    exact hp'
  · have hr : p.kernel (fd c) = none := by simpa [hi] using hreg
    rw [if_neg hi]
    refine ⟨_,rfl,hframe.trans (setChannel_frame ..),?_,?_⟩
    · apply Tracked.setChannel (p := p1)
      · exact .inl rfl
      · simp [p1,hr,added_ne_new.symm]
      · exact hcs
    · intro mask hm
      have hnone : (p1.setIndex c kNew).kernel (fd c) = none := hr
      rw [hnone] at hm
      cases hm

/-- The poller leaves a channel with the index its `update` and `remove` say. -/
theorem UpdateChannel_channel (h : p.UpdateChannel fd c = some p') :
    p'.channel c = (p.channel c).update := by
  have hsame {q r : EPollPoller C} {operation : CtlOp} (hu : q.Update fd operation c = some r) :
      r.channel = q.channel := by
    unfold Update at hu
    dsimp only at hu
    split at hu
    · obtain rfl := Option.some.inj hu
      rfl
    · split_ifs at hu
      · obtain rfl := Option.some.inj hu
        rfl
  unfold EPollPoller.UpdateChannel at h
  unfold Channel.update
  dsimp only at h
  split_ifs at h ⊢ with hn hk hnone
  · rw [hsame h,setIndex_channel]
  · rw [hsame h,setIndex_channel]
  · obtain ⟨q,hq,rfl⟩ := Option.map_eq_some_iff.mp h
    rw [setIndex_channel,hsame hq]
  · rw [hsame h]

theorem RemoveChannel_channel (h : p.RemoveChannel fd c = some p') :
    (p'.channel c).index = (p.channel c).remove.index := by
  obtain ⟨q,-,rfl⟩ := Option.map_eq_some_iff.mp h
  rw [setIndex_channel]
  rfl

theorem Tracked.change (h : Tracked fd p c) (f : Channel → Channel)
    (hf : ∀ ch, (f ch).index = ch.index) :
    ∃ p', p.change fd c f = some p' ∧ Frame fd p p' c ∧ Tracked fd p' c ∧ Masked fd p' c := by
  have hset : Tracked fd (p.setChannel c (f (p.channel c))) c := by
    apply Tracked.setChannel
    · rw [hf]
      exact h.index
    · rw [hf]
      exact h.registered
    · rw [hf]
      exact h.channels
  obtain ⟨p',hp',hframe,ht,hm⟩ := hset.UpdateChannel
  exact ⟨p',hp',(setChannel_frame ..).trans hframe,ht,hm⟩

theorem Tracked.step (h : Tracked fd p op.channel) :
    ∃ p', p.step fd op = some p' ∧ Frame fd p p' op.channel ∧
      Tracked fd p' op.channel ∧ Masked fd p' op.channel := by
  cases op with
  | EnableRead c => exact h.change _ fun _ => rfl
  | DisableRead c => exact h.change _ fun _ => rfl
  | EnableWrite c => exact h.change _ fun _ => rfl
  | DisableWrite c => exact h.change _ fun _ => rfl
  | DisableAll c => exact h.change _ fun _ => rfl
  | remove c => exact h.RemoveChannel

/-- Every channel is in step with the poller and the kernel, and no call failed. -/
structure InStep (fd : C → Int) (p : EPollPoller C) : Prop where
  tracked : ∀ c, Tracked fd p c
  masked : ∀ c, Masked fd p c
  issued : ∀ call ∈ p.issued, Fit call

theorem InStep.step (h : InStep fd p) (hfd : fd.Injective) (op : PollerOp C) :
    ∃ p', p.step fd op = some p' ∧ InStep fd p' := by
  obtain ⟨p',hp',hframe,ht,hm⟩ := (h.tracked op.channel).step
  refine ⟨p',hp',?_,?_,?_⟩
  · intro c
    by_cases hc : c = op.channel
    · rw [hc]
      exact ht
    · exact hframe.tracked hfd hc (h.tracked c)
  · intro c
    by_cases hc : c = op.channel
    · rw [hc]
      exact hm
    · exact hframe.masked hfd hc (h.masked c)
  · intro call hcall
    cases hframe.issued call hcall with
    | inl hold => exact h.issued call hold
    | inr hfit => exact hfit

theorem InStep.path (hfd : fd.Injective) (hp : (machine fd).Path Machine.always .new p) :
    InStep fd p := by
  refine hp.invariant ?_ ⟨Tracked.new,fun _ _ h => (nomatch h),fun _ h => (nomatch h)⟩
  intro p op p' h _ ht
  obtain ⟨q,hq,hs⟩ := h.step hfd op
  have he : q = p' := Option.some.inj (hq.symm.trans ht)
  rw [← he]
  exact hs

end EPollPoller

/-- Over every run of channel operations no call of `epoll_ctl` meets an fd in the wrong
state, a fd is registered when and as its channel says, and `channels_` holds the channels
whose index is not `kNew`. -/
theorem poller_in_step {C : Type*} [DecidableEq C] {fd : C → Int} (hfd : fd.Injective)
    {p : EPollPoller C} (hp : (EPollPoller.machine fd).Path Machine.always .new p) :
    (∀ operation registered, (operation,registered) ∈ p.issued →
      (registered = true ↔ operation ≠ .add)) ∧
    (∀ op, ∃ p', p.step fd op = some p') ∧
    (∀ c, p.kernel (fd c) =
      if (p.channel c).index = kAdded then some (p.channel c).event else none) ∧
    ∀ c, p.HasChannel fd c = true ↔ (p.channel c).index ≠ kNew := by
  have h := EPollPoller.InStep.path hfd hp
  refine ⟨fun _ _ hm => h.issued _ hm,?_,?_,?_⟩
  · intro op
    obtain ⟨p',hp',-⟩ := h.step hfd op
    exact ⟨p',hp'⟩
  · intro c
    have hreg := (h.tracked c).registered
    split_ifs with hi
    · obtain ⟨mask,hm⟩ := Option.isSome_iff_exists.mp (hreg.mpr hi)
      rw [hm,h.masked c mask hm]
    · simpa [hi] using hreg
  · intro c
    rw [EPollPoller.HasChannel,(h.tracked c).channels]
    split_ifs with hi <;> simp [hi]

theorem poller_in_step_two : ∃ p : EPollPoller (Fin 2), (p.channel 0).index = kDeleted ∧
    (p.channel 1).index = kAdded ∧ p.kernel 8 = some kReadEvent := by
  obtain ⟨p,hp,ht⟩ := Machine.exec_any (EPollPoller.machine fun c : Fin 2 => (c.val+7 : Int))
    Machine.always .new
    [.EnableRead 0,.EnableRead 1,.EnableWrite 0,.DisableAll 0,.remove 1,.EnableRead 1,
      .DisableWrite 1]
    (fun p => (p.channel 0).index = kDeleted ∧ (p.channel 1).index = kAdded ∧
      (p.channel 1).event = kReadEvent) (by decide +kernel)
  have hs : (p.channel 0).index = kDeleted ∧ (p.channel 1).index = kAdded ∧
      (p.channel 1).event = kReadEvent := by simpa using ht
  have hfd : Function.Injective fun c : Fin 2 => (c.val+7 : Int) := by
    intro a b hab
    have hval : (a.val : Int)+7 = b.val+7 := hab
    exact Fin.ext (by omega)
  have hk := (poller_in_step hfd hp).2.2.1 1
  rw [if_pos hs.2.1,hs.2.2] at hk
  exact ⟨p,hs.1,hs.2.1,hk⟩

end SRaftMuduo
