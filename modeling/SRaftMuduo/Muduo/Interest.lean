import SRaftMuduo.Muduo.Poller
import Mathlib.Data.List.Induction

namespace SRaftMuduo

/-- What the operation makes of `event_`. -/
def PollerOp.mask {C : Type*} (event : BitVec 32) : PollerOp C → BitVec 32
  | .EnableRead _ => event ||| kReadEvent
  | .DisableRead _ => event &&& ~~~kReadEvent
  | .EnableWrite _ => event ||| kWriteEvent
  | .DisableWrite _ => event &&& ~~~kWriteEvent
  | .DisableAll _ => kNoneEvent
  | .remove _ => event

def PollerOp.isRemove {C : Type*} : PollerOp C → Bool
  | .remove _ => true
  | _ => false

/-- The masks that a sequence of operations gives to one channel: the last of them, how many
at the end are empty, and whether any is not. -/
structure Marks where
  mask : BitVec 32
  empties : Nat
  used : Bool

namespace Marks

def start : Marks := ⟨kNoneEvent,0,false⟩

def next {C : Type*} (m : Marks) (op : PollerOp C) : Marks :=
  let mask := op.mask m.mask
  if mask = kNoneEvent then ⟨mask,m.empties+1,m.used⟩ else ⟨mask,0,true⟩

/-- No empty mask at the end; or an odd number of them after one that was not empty, an even
number when there was none. -/
def Settled (m : Marks) : Prop := m.empties = 0 ∨ (m.used = true ↔ m.empties%2 = 1)

instance (m : Marks) : Decidable m.Settled := inferInstanceAs (Decidable (_ ∨ (_ ↔ _)))

/-- Each update on an empty mask turns the registration round. -/
def Registered (m : Marks) : Prop := m.used = true ↔ m.empties%2 = 0

instance (m : Marks) : Decidable m.Registered := inferInstanceAs (Decidable (_ ↔ _))

def index (m : Marks) : Int :=
  if m.used = false ∧ m.empties = 0 then kNew else if m.Registered then kAdded else kDeleted

theorem index_added (m : Marks) : m.index = kAdded ↔ m.Registered := by
  unfold index
  split_ifs with hnew hreg
  · simp [Registered,hnew,EPollPoller.added_ne_new.symm]
  · simp [hreg]
  · simp [hreg,EPollPoller.deleted_ne_added]

theorem index_deleted {m : Marks} (h : ¬m.Registered) (he : m.empties ≠ 0) :
    m.index = kDeleted := by
  rw [index,if_neg (fun hnew => he hnew.2),if_neg h]

theorem registered_succ {m : Marks} {mask : BitVec 32} :
    Registered ⟨mask,m.empties+1,m.used⟩ ↔ ¬m.Registered := by
  unfold Registered
  cases m.used <;> simp <;> omega

theorem registered_used {mask : BitVec 32} : Registered ⟨mask,0,true⟩ := by simp [Registered]

end Marks

namespace EPollPoller

variable {C : Type*} [DecidableEq C] {fd : C → Int} {p p' : EPollPoller C} {op : PollerOp C}
  {c : C} {m : Marks}

/-- What the operations do to the channel `c`. -/
def marks (c : C) (ops : List (PollerOp C)) : Marks :=
  (ops.filter (fun op => op.channel = c)).foldl Marks.next .start

/-- A sequence of operations. -/
def run (fd : C → Int) (p : EPollPoller C) (ops : List (PollerOp C)) : Option (EPollPoller C) :=
  ops.foldlM (step fd) p

/-- The channel has the mask and the index of its marks. -/
structure Marked (p : EPollPoller C) (c : C) (m : Marks) : Prop where
  event : (p.channel c).event = m.mask
  index : (p.channel c).index = m.index
  empty : m.mask = kNoneEvent ↔ m.used = false ∨ m.empties ≠ 0

theorem change_channel {f : Channel → Channel} (h : p.change fd c f = some p') :
    p'.channel c = (f (p.channel c)).update := by
  rw [UpdateChannel_channel h,setChannel_channel]

theorem step_channel (hop : op.isRemove = false) (hs : p.step fd op = some p') :
    p'.channel op.channel = Channel.update
      {p.channel op.channel with event := op.mask (p.channel op.channel).event} := by
  cases op with
  | remove c => cases hop
  | EnableRead c => exact change_channel hs
  | DisableRead c => exact change_channel hs
  | EnableWrite c => exact change_channel hs
  | DisableWrite c => exact change_channel hs
  | DisableAll c => exact change_channel hs

omit [DecidableEq C] in
theorem Marked.new (c : C) : Marked .new c .start := ⟨rfl,rfl,by simp [Marks.start]⟩

/-- An update of a channel that is not registered registers it, also on an empty mask. -/
theorem Marked.next (h : Marked p op.channel m) (hop : op.isRemove = false)
    (hs : p.step fd op = some p') : Marked p' op.channel (m.next op) := by
  have hch := step_channel hop hs
  rw [h.event] at hch
  unfold Marks.next
  by_cases hreg : m.Registered
  · have hadded : (p.channel op.channel).index = kAdded :=
      h.index.trans (m.index_added.mpr hreg)
    unfold Channel.update at hch
    rw [if_neg (by simp [hadded,added_ne_new,deleted_ne_added.symm])] at hch
    dsimp only
    split_ifs with hempty
    · rw [if_pos (by simpa [Channel.IsNoneEvent] using hempty)] at hch
      have hno : ¬Marks.Registered ⟨op.mask m.mask,m.empties+1,m.used⟩ :=
        fun hsucc => Marks.registered_succ.mp hsucc hreg
      refine ⟨by rw [hch],?_,by simp [hempty]⟩
      rw [hch,Marks.index_deleted hno (Nat.succ_ne_zero _)]
    · rw [if_neg (by simpa [Channel.IsNoneEvent] using hempty)] at hch
      refine ⟨by rw [hch],?_,by simp [hempty]⟩
      rw [hch,(Marks.index_added _).mpr Marks.registered_used]
      exact hadded
  · have hoff : (p.channel op.channel).index = kNew ∨ (p.channel op.channel).index = kDeleted := by
      rw [h.index,Marks.index]
      split_ifs
      · exact .inl rfl
      · exact .inr rfl
    unfold Channel.update at hch
    rw [if_pos hoff] at hch
    dsimp only
    split_ifs with hempty
    · refine ⟨by rw [hch],?_,by simp [hempty]⟩
      rw [hch,(Marks.index_added _).mpr (Marks.registered_succ.mpr hreg)]
    · refine ⟨by rw [hch],?_,by simp [hempty]⟩
      rw [hch,(Marks.index_added _).mpr Marks.registered_used]

theorem Marked.other (h : Marked p c m) (hin : InStep fd p) (hc : op.channel ≠ c)
    (hs : p.step fd op = some p') : Marked p' c m := by
  obtain ⟨q,hq,hframe,-⟩ := (hin.tracked op.channel).step
  obtain rfl := Option.some.inj (hq.symm.trans hs)
  have hch := hframe.channel c (Ne.symm hc)
  exact ⟨by rw [hch,h.event],by rw [hch,h.index],h.empty⟩

/-- The whole sequence goes through, and leaves every channel with its marks. -/
theorem run_marked (hfd : fd.Injective) (ops : List (PollerOp C))
    (hops : ∀ op ∈ ops, op.isRemove = false) :
    ∃ p, run fd .new ops = some p ∧ InStep fd p ∧ ∀ c, Marked p c (marks c ops) := by
  induction ops using List.reverseRecOn with
  | nil =>
    exact ⟨.new,rfl,.path hfd (.refl _),Marked.new⟩
  | append_singleton ops op ih =>
    obtain ⟨p,hp,hin,hm⟩ := ih (fun op hop => hops op (List.mem_append_left _ hop))
    have hop := hops op (by simp)
    obtain ⟨p',hs,hin'⟩ := hin.step hfd op
    refine ⟨p',?_,hin',fun c => ?_⟩
    · rw [run,List.foldlM_append]
      rw [run] at hp
      rw [hp]
      simpa using hs
    · rw [marks,List.filter_append,List.foldl_append]
      by_cases hc : op.channel = c
      · subst hc
        simpa [marks] using (hm op.channel).next hop hs
      · simpa [marks,hc] using (hm c).other hin hc hs

end EPollPoller

/-- Over every sequence of operations on any channels, a fd is registered exactly when the
mask of its channel is not empty if and only if the marks of the channel are settled. -/
theorem registered_by_mask_iff {C : Type*} [DecidableEq C] {fd : C → Int} (hfd : fd.Injective)
    (ops : List (PollerOp C)) (hops : ∀ op ∈ ops, op.isRemove = false) :
    ∃ p, EPollPoller.run fd .new ops = some p ∧ ∀ c,
      (((p.kernel (fd c)).isSome = true ↔ (p.channel c).event ≠ kNoneEvent) ↔
        (EPollPoller.marks c ops).Settled) := by
  obtain ⟨p,hp,hin,hm⟩ := EPollPoller.run_marked hfd ops hops
  refine ⟨p,hp,fun c => ?_⟩
  have hmarks := hm c
  generalize EPollPoller.marks c ops = m at hmarks
  rw [(hin.tracked c).registered,hmarks.index,Marks.index_added,hmarks.event,Ne,hmarks.empty,
    Marks.Registered,Marks.Settled]
  cases m.used
  · simp
    omega
  · simp
    omega

theorem registered_by_mask_two : ∃ p : EPollPoller (Fin 2),
    EPollPoller.run (fun c : Fin 2 => (c.val+7 : Int)) .new
      [.EnableRead 0,.EnableRead 1,.DisableAll 0,.EnableWrite 1] = some p ∧
    ∀ c, ((p.kernel (c.val+7)).isSome = true ↔ (p.channel c).event ≠ kNoneEvent) := by
  have hfd : Function.Injective fun c : Fin 2 => (c.val+7 : Int) := by
    intro a b hab
    have hval : (a.val : Int)+7 = b.val+7 := hab
    exact Fin.ext (by omega)
  obtain ⟨p,hp,hiff⟩ := registered_by_mask_iff hfd
    [.EnableRead 0,.EnableRead 1,.DisableAll 0,.EnableWrite 1] (by decide)
  refine ⟨p,hp,fun c => (hiff c).mpr ?_⟩
  revert c
  decide +kernel

/-- A close and then the destruction of a connection: both call `DisableAll`, and the second
registers the channel again. -/
theorem registered_empty : ∃ p : EPollPoller Unit,
    EPollPoller.run (fun _ => 7) .new [.EnableRead (),.DisableAll (),.DisableAll ()] = some p ∧
    (p.kernel 7).isSome = true ∧ (p.channel ()).event = kNoneEvent := by
  have hrun : (EPollPoller.run (fun _ => 7) (.new : EPollPoller Unit)
      [.EnableRead (),.DisableAll (),.DisableAll ()]).any (fun p =>
        (p.kernel 7).isSome ∧ (p.channel ()).event = kNoneEvent) = true := by decide +kernel
  obtain ⟨p,hp,h⟩ := (Option.any_eq_true _ _).mp hrun
  exact ⟨p,hp,of_decide_eq_true h⟩

end SRaftMuduo
