import SRaftMuduo.Framework.Monitor

namespace SRaftMuduo

inductive ChannelCall (α : Type*)
  | pushData (s : α)
  | popData
  deriving DecidableEq

namespace MyChannel

variable {α ι : Type*}

/-- `pushData` and `popData` under `mut_`; the wait of `popData` is for `!que.empty()`, and
`que.front()` of an empty queue has no value. -/
def monitor (α : Type*) : Monitor (List α) (ChannelCall α) (Option α) where
  ready
    | .pushData _, _ => true
    | .popData, que => !que.isEmpty
  act
    | .pushData s, que => (que++[s],none)
    | .popData, que => (que.tail,que.head?)
  notifies
    | .pushData _ => true
    | .popData => false

theorem stocked : (monitor α).Stocked List.length where
  give_ready o que h := by
    cases o with
    | pushData s => rfl
    | popData => cases h
  give o que h := by
    cases o with
    | pushData s => simp [monitor]
    | popData => cases h
  take_ready o que h hno := by
    cases o with
    | pushData s => cases h
    | popData =>
      cases que with
      | nil => rfl
      | cons x que => cases hno
  take o que h hready := by
    cases o with
    | pushData s => cases h
    | popData =>
      cases que with
      | nil => cases hready
      | cons x que => simp [monitor]

/-- A call that has returned, with its result. -/
abbrev Done (α ι : Type*) := ι × ChannelCall α × Option α

/-- A call returns when its lock is released. -/
def returns (s : Threads (List α) (ChannelCall α) (Option α) ι) :
    MonitorEvent (ChannelCall α) ι → List (Done α ι)
  | .unlock i =>
    match s.place i with
    | .leaving o r => [(i,o,r)]
    | _ => []
  | _ => []

/-- What the calls of `pushData` that have returned put into the channel. -/
def pushed (h : List (Done α ι)) : List α :=
  h.filterMap fun d =>
    match d.2.1 with
    | .pushData s => some s
    | .popData => none

/-- What the calls of `popData` have returned. -/
def popped (h : List (Done α ι)) : List (Option α) :=
  h.filterMap fun d =>
    match d.2.1 with
    | .pushData _ => none
    | .popData => some d.2.2

theorem pushed_append (h k : List (Done α ι)) : pushed (h++k) = pushed h++pushed k :=
  List.filterMap_append

theorem popped_append (h k : List (Done α ι)) : popped (h++k) = popped h++popped k :=
  List.filterMap_append

/-- What `popData` has taken at this place and not returned yet. -/
def taken : Place (ChannelCall α) (Option α) → List (Option α)
  | .signalling .popData r | .leaving .popData r => [r]
  | _ => []

/-- What `pushData` has put at this place, before it has returned. -/
def put : Place (ChannelCall α) (Option α) → List α
  | .signalling (.pushData s) _ | .leaving (.pushData s) _ => [s]
  | _ => []

/-- What `f` finds at the owner of the mutex. -/
def inHand {β : Type*} (f : Place (ChannelCall α) (Option α) → List β)
    (s : Threads (List α) (ChannelCall α) (Option α) ι) : List β :=
  match s.owner with
  | none => []
  | some i => f (s.place i)

/-- What was pushed is what was popped and then what waits; a `pushData` under way has put its
string behind that. -/
def Accounted (s : Threads (List α) (ChannelCall α) (Option α) ι) (h : List (Done α ι)) : Prop :=
  ∃ que, s.data = que++inHand put s ∧
    popped h++inHand taken s++que.map some = (pushed h).map some

section

variable [DecidableEq ι] {β : Type*} {f : Place (ChannelCall α) (Option α) → List β}
  {s t : Threads (List α) (ChannelCall α) (Option α) ι} {h : List (Done α ι)} {i : ι}
  {e : MonitorEvent (ChannelCall α) ι}

theorem inHand_other {p : Place (ChannelCall α) (Option α)} (hi : s.owner ≠ some i) :
    inHand f (s.move i p) = inHand f s := by
  cases ho : s.owner with
  | none => simp [inHand,ho]
  | some j =>
    have hne : j ≠ i := fun hji => hi (by rw [ho,hji])
    simp [inHand,ho,Threads.move_other s p hne]

omit [DecidableEq ι] in
theorem inHand_owner (hi : s.owner = some i) : inHand f s = f (s.place i) := by
  simp [inHand,hi]

theorem inHand_move {p : Place (ChannelCall α) (Option α)} (hi : s.owner = some i) :
    inHand f (s.move i p) = f p := by
  simp [inHand,hi,Threads.move_self]

omit [DecidableEq ι] in
theorem Accounted.same (h' : Accounted s h) (hd : t.data = s.data)
    (htaken : inHand taken t = inHand taken s) (hput : inHand put t = inHand put s) :
    Accounted t (h++[]) := by
  rw [List.append_nil,Accounted,hd,htaken,hput]
  exact h'

variable [Fintype ι]

theorem Accounted.step (hs : (monitor α).Sound List.length s) (h' : Accounted s h)
    (ht : (monitor α).step s e = some t) : Accounted t (h++returns s e) := by
  have hfree {j : ι} (hj : (s.place j).holds = false) : s.owner ≠ some j := by
    intro ho
    rw [(hs.owner j).mp ho] at hj
    cases hj
  cases Monitor.step_moved ht with
  | @call i o hi =>
    have hno := hfree (j := i) (by rw [hi]; rfl)
    exact h'.same rfl (inHand_other hno) (inHand_other hno)
  | @lock i o hi hnone =>
    refine h'.same rfl ?_ ?_
    · simp [inHand,hnone,Threads.move_self,taken]
    · simp [inHand,hnone,Threads.move_self,put]
  | @wait i o hi =>
    have howner := (hs.owner i).mpr (by rw [hi]; rfl)
    refine h'.same rfl ?_ ?_
    · rw [inHand_owner howner,hi]
      rfl
    · rw [inHand_owner howner,hi]
      rfl
  | @give i o hi hready hn =>
    have howner := (hs.owner i).mpr (by rw [hi]; rfl)
    cases o with
    | popData => cases hn
    | pushData x =>
      obtain ⟨que,hdata,hpop⟩ := h'
      rw [inHand_owner howner,hi] at hdata hpop
      change Accounted _ (h++[])
      rw [List.append_nil]
      refine ⟨que,?_,?_⟩
      · change s.data++[x] = que++inHand put (s.move i (.signalling (.pushData x) none))
        rw [hdata,inHand_move howner]
        simp [put]
      · change popped h++inHand taken (s.move i (.signalling (.pushData x) none))++_ = _
        rw [inHand_move howner]
        exact hpop
  | @take i o hi hready hn =>
    have howner := (hs.owner i).mpr (by rw [hi]; rfl)
    cases o with
    | pushData x => cases hn
    | popData =>
      obtain ⟨que,hdata,hpop⟩ := h'
      rw [inHand_owner howner,hi] at hdata hpop
      simp only [put,taken,List.append_nil] at hdata hpop
      cases que with
      | nil =>
        rw [hdata] at hready
        cases hready
      | cons x que =>
        change Accounted _ (h++[])
        rw [List.append_nil]
        refine ⟨que,?_,?_⟩
        · change s.data.tail = que++inHand put (s.move i (.leaving .popData s.data.head?))
          rw [hdata,inHand_move howner]
          simp [put]
        · change popped h++inHand taken (s.move i (.leaving .popData s.data.head?))++_ = _
          rw [hdata,inHand_move howner]
          simpa [taken] using hpop
  | @silent i o r hi =>
    have howner := (hs.owner i).mpr (by rw [hi]; rfl)
    refine h'.same rfl ?_ ?_
    · rw [inHand_move howner,inHand_owner howner,hi]
      cases o <;> rfl
    · rw [inHand_move howner,inHand_owner howner,hi]
      cases o <;> rfl
  | @notify i j o p r hi hj =>
    have howner := (hs.owner i).mpr (by rw [hi]; rfl)
    have hno : (s.move i (.leaving o r)).owner ≠ some j := hfree (by rw [hj]; rfl)
    refine h'.same rfl ?_ ?_
    · rw [inHand_other hno,inHand_move howner,inHand_owner howner,hi]
      cases o <;> rfl
    · rw [inHand_other hno,inHand_move howner,inHand_owner howner,hi]
      cases o <;> rfl
  | @unlock i o r hi =>
    have howner := (hs.owner i).mpr (by rw [hi]; rfl)
    obtain ⟨que,hdata,hpop⟩ := h'
    rw [inHand_owner howner,hi] at hdata hpop
    have hreturns : returns s (.unlock i) = [(i,o,r)] := by simp [returns,hi]
    rw [hreturns]
    refine ⟨s.data,(List.append_nil _).symm,?_⟩
    change _++[]++_ = _
    rw [popped_append,pushed_append,List.append_nil,hdata]
    cases o with
    | pushData x =>
      simp only [popped,pushed,taken,put] at hpop ⊢
      simp [← hpop]
    | popData =>
      simp only [popped,pushed,taken,put] at hpop ⊢
      simp [← hpop]
  | @spurious i o hi =>
    have hno := hfree (j := i) (by rw [hi]; rfl)
    exact h'.same rfl (inHand_other hno) (inHand_other hno)

/-- The channel with the calls that have returned. -/
def machine (α ι : Type*) [Fintype ι] [DecidableEq ι] :
    Machine (Threads (List α) (ChannelCall α) (Option α) ι × List (Done α ι))
      (MonitorEvent (ChannelCall α) ι) :=
  ((monitor α).machine ι []).record returns

def new : Threads (List α) (ChannelCall α) (Option α) ι × List (Done α ι) :=
  (⟨[],none,fun _ => .outside⟩,[])

/-- The invariant of the channel. -/
structure Sound (p : Threads (List α) (ChannelCall α) (Option α) ι × List (Done α ι)) : Prop where
  threads : (monitor α).Sound List.length p.1
  accounted : Accounted p.1 p.2

variable {p q : Threads (List α) (ChannelCall α) (Option α) ι × List (Done α ι)}
  {ok : Threads (List α) (ChannelCall α) (Option α) ι × List (Done α ι) →
    MonitorEvent (ChannelCall α) ι → Prop}

theorem Sound.step (hp : Sound p) (h : (machine α ι).step p e = some q) : Sound q := by
  obtain ⟨hstep,hrecord⟩ := Machine.record_step h
  exact ⟨hp.threads.step stocked hstep,hrecord ▸ hp.accounted.step hp.threads hstep⟩

theorem Sound.path (h : (machine α ι).Path ok new q) : Sound q :=
  h.invariant (I := Sound) (fun _ _ _ hi _ ht => hi.step ht) ⟨.new [],[],rfl,rfl⟩

omit [DecidableEq ι] in
theorem Sound.balanced (hq : Sound q) : popped q.2 <+: (pushed q.2).map some ∧
    (q.1.owner = none → popped q.2++q.1.data.map some = (pushed q.2).map some) := by
  obtain ⟨que,hdata,hpop⟩ := hq.accounted
  constructor
  · rw [← hpop,List.append_assoc]
    exact List.prefix_append ..
  · intro hfree
    simp only [inHand,hfree,List.append_nil] at hdata hpop
    rw [hdata,hpop]

/-- The channel keeps the order and loses and doubles nothing: what the calls of `popData`
returned, in the order in which they returned, is a beginning of what the calls of `pushData`
put in, and together with the queue all of it when nobody holds the mutex. -/
theorem channel_exact (h : (machine α ι).Path Machine.always new q) :
    popped q.2 <+: (pushed q.2).map some ∧
    (q.1.owner = none → popped q.2++q.1.data.map some = (pushed q.2).map some) := by
  exact (Sound.path h).balanced

theorem channel_exact_two : ∃ q : Threads (List Nat) (ChannelCall Nat) (Option Nat) Bool ×
    List (Done Nat Bool), popped q.2 = [some 5] ∧ pushed q.2 = [5,6] ∧
    popped q.2 <+: (pushed q.2).map some ∧
    (q.1.owner = none → popped q.2++q.1.data.map some = (pushed q.2).map some) := by
  obtain ⟨q,hp,hq⟩ := Machine.exec_any (machine Nat Bool) Machine.always new
    [.call true .popData,.lock true,.wait true,.call false (.pushData 5),.lock false,.act false,
      .notify false (some true),.unlock false,.call false (.pushData 6),.lock false,.act false,
      .notify false none,.unlock false,.lock true,.act true,.unlock true]
    (fun q => popped q.2 = [some 5] ∧ pushed q.2 = [5,6]) (by decide +kernel)
  have hs : popped q.2 = [some 5] ∧ pushed q.2 = [5,6] := of_decide_eq_true hq
  exact ⟨q,hs.1,hs.2,channel_exact hp⟩

/-- No wakeup is lost: from any state on, the threads take at most 7 steps each, 7 more for a
new call and 3 more for a spurious wakeup; and when they can take none, every `pushData` has
returned, and a `popData` still waits only when all that was pushed has been returned. -/
theorem no_lost_wakeup (h : (machine α ι).Path Machine.always new p)
    {es : List (MonitorEvent (ChannelCall α) ι)}
    (ht : (machine α ι).exec Machine.always p es = some q) :
    es.countP MonitorEvent.busy ≤ Fintype.card ι*7+(es.map MonitorEvent.cost).sum ∧
    ((monitor α).Quiet q.1 → ∀ i, q.1.place i = .outside ∨
      q.1.place i = .asleep .popData ∧ popped q.2 = (pushed q.2).map some) := by
  have hstep : ∀ (s : Threads (List α) (ChannelCall α) (Option α) ι × List (Done α ι))
      (e : MonitorEvent (ChannelCall α) ι) (t : _), Sound s → (machine α ι).step s e = some t →
      Sound t ∧ t.1.total (monitor α).work+(if e.busy then 1 else 0)
        ≤ s.1.total (monitor α).work+e.cost :=
    fun s e t hs ht => ⟨hs.step ht,hs.threads.work (Machine.record_step ht).1⟩
  obtain ⟨hq,hle⟩ := Machine.exec_potential (fun s => s.1.total (monitor α).work)
    MonitorEvent.cost MonitorEvent.busy hstep es (Sound.path h) ht
  constructor
  · have hbound := p.1.total_le (Monitor.work_le (P := monitor α))
    omega
  · intro hquiet i
    obtain hi | hi := hq.threads.quiet_place hquiet i
    · exact .inl hi
    · have hempty : q.1.data = [] :=
        List.eq_nil_of_length_eq_zero (hq.threads.quiet_stock hquiet hi)
      obtain ⟨o,ho⟩ := Place.isAsleep_iff.mp hi
      have htaker := hq.threads.takers i o ho
      have hall := hq.balanced.2 (hq.threads.quiet_owner hquiet)
      cases o with
      | pushData s => cases htaker
      | popData => exact .inr ⟨ho,by simpa [hempty] using hall⟩

theorem no_lost_wakeup_two : ∃ p q : Threads (List Nat) (ChannelCall Nat) (Option Nat) Bool ×
    List (Done Nat Bool), p.1.place true = .asleep .popData ∧ popped q.2 = [some 5] ∧
    (monitor Nat).Quiet q.1 ∧ ∀ i, q.1.place i = .outside ∨
      q.1.place i = .asleep .popData ∧ popped q.2 = (pushed q.2).map some := by
  let es : List (MonitorEvent (ChannelCall Nat) Bool) :=
    [.call false (.pushData 5),.lock false,.act false,.notify false (some true),.unlock false,
      .lock true,.act true,.unlock true,.call true .popData,.lock true,.wait true]
  obtain ⟨p,hp,hs⟩ := Machine.exec_any (machine Nat Bool) Machine.always new
    [.call true .popData,.lock true,.wait true]
    (fun p => p.1.place true = .asleep .popData ∧
      ((machine Nat Bool).exec Machine.always p es).any fun q => popped q.2 = [some 5] ∧
        ∀ i, q.1.place i = .outside ∨ (q.1.place i).isAsleep = true) (by decide +kernel)
  obtain ⟨hasleep,hafter⟩ := of_decide_eq_true hs
  obtain ⟨q,hq,hend⟩ := (Option.any_eq_true _ _).mp hafter
  obtain ⟨hpopped,hplaces⟩ := of_decide_eq_true hend
  have hquiet := Monitor.quiet_of_places (P := monitor Nat) hplaces
  exact ⟨p,q,hasleep,hpopped,hquiet,(no_lost_wakeup hp hq).2 hquiet⟩

end

end MyChannel

end SRaftMuduo
