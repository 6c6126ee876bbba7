import SRaftMuduo.Framework.Machine
import Mathlib.Algebra.BigOperators.Group.Finset.Piecewise
import Mathlib.Algebra.Order.BigOperators.Group.Finset
import Mathlib.Algebra.Order.Group.Nat

namespace SRaftMuduo

/-- Where a thread stands in a call `o`: outside, at the mutex (when it comes or when the wait
is over), inside, asleep, before `notify_one`, or before the unlock with its result. -/
inductive Place (ω ρ : Type*)
  | outside
  | entering (o : ω)
  | inside (o : ω)
  | asleep (o : ω)
  | signalling (o : ω) (r : ρ)
  | leaving (o : ω) (r : ρ)
  deriving DecidableEq

/-- The calls of a monitor. Each takes the mutex, waits until it is `ready`, does `act`, calls
`notify_one` if it is one that `notifies`, and unlocks. -/
structure Monitor (δ ω ρ : Type*) where
  ready : ω → δ → Bool
  act : ω → δ → δ × ρ
  notifies : ω → Bool

/-- The data, the owner of the mutex and the places of all threads. -/
structure Threads (δ ω ρ ι : Type*) where
  data : δ
  owner : Option ι
  place : ι → Place ω ρ

inductive MonitorEvent (ω ι : Type*)
  | call (i : ι) (o : ω)
  | lock (i : ι)
  | wait (i : ι)
  | act (i : ι)
  | notify (i : ι) (woken : Option ι)
  | unlock (i : ι)
  | spurious (i : ι)

/-- A step that a thread owes: not the beginning of a call and not a spurious wakeup. -/
def MonitorEvent.busy {ω ι : Type*} : MonitorEvent ω ι → Bool
  | .call .. | .spurious _ => false
  | _ => true

/-- What an event can add to the work that is left. -/
def MonitorEvent.cost {ω ι : Type*} : MonitorEvent ω ι → Nat
  | .call .. => 7
  | .spurious _ => 3
  | _ => 0

/-- The thread holds the mutex. -/
def Place.holds {ω ρ : Type*} : Place ω ρ → Bool
  | .inside _ | .signalling .. | .leaving .. => true
  | _ => false

def Place.isAsleep {ω ρ : Type*} : Place ω ρ → Bool
  | .asleep _ => true
  | _ => false

theorem Place.isAsleep_iff {ω ρ : Type*} {p : Place ω ρ} :
    p.isAsleep = true ↔ ∃ o, p = .asleep o := by
  cases p with
  | asleep o => exact ⟨fun _ => ⟨o,rfl⟩,fun _ => rfl⟩
  | outside | entering | inside | signalling | leaving =>
    constructor
    · intro h
      cases h
    · intro ⟨o,h⟩
      cases h

theorem Place.holds_of_asleep {ω ρ : Type*} {p : Place ω ρ} (h : p.isAsleep = true) :
    p.holds = false := by
  obtain ⟨o,rfl⟩ := Place.isAsleep_iff.mp h
  rfl

namespace Threads

variable {δ ω ρ ι : Type*} [DecidableEq ι]

def move (s : Threads δ ω ρ ι) (i : ι) (p : Place ω ρ) : Threads δ ω ρ ι :=
  {s with place := Function.update s.place i p}

@[simp] theorem move_data (s : Threads δ ω ρ ι) (i : ι) (p : Place ω ρ) :
    (s.move i p).data = s.data := rfl

@[simp] theorem move_owner (s : Threads δ ω ρ ι) (i : ι) (p : Place ω ρ) :
    (s.move i p).owner = s.owner := rfl

theorem move_self (s : Threads δ ω ρ ι) (i : ι) (p : Place ω ρ) : (s.move i p).place i = p :=
  Function.update_self ..

theorem move_other (s : Threads δ ω ρ ι) {i j : ι} (p : Place ω ρ) (h : j ≠ i) :
    (s.move i p).place j = s.place j := Function.update_of_ne h ..

/-- What holds of the new place and of the old ones holds of all places after a move. -/
theorem move_each {p : ι → Place ω ρ → Prop} {s : Threads δ ω ρ ι} {i : ι} {q : Place ω ρ}
    (hs : ∀ j, p j (s.place j)) (hq : p i q) (j : ι) : p j ((s.move i q).place j) := by
  by_cases h : j = i
  · obtain rfl := h
    rw [move_self]
    exact hq
  · rw [move_other s q h]
    exact hs j

end Threads

namespace Threads

variable {δ ω ρ ι : Type*} [Fintype ι]

/-- The weights of all places together. -/
def total (w : Place ω ρ → Nat) (s : Threads δ ω ρ ι) : Nat := ∑ i, w (s.place i)

theorem total_eq_zero {w : Place ω ρ → Nat} {s : Threads δ ω ρ ι} (h : ∀ i, w (s.place i) = 0) :
    s.total w = 0 := Finset.sum_eq_zero fun i _ => h i

theorem total_le {w : Place ω ρ → Nat} {s : Threads δ ω ρ ι} {n : Nat} (h : ∀ p, w p ≤ n) :
    s.total w ≤ Fintype.card ι*n := Finset.sum_le_card_nsmul _ _ n fun i _ => h (s.place i)

theorem total_move [DecidableEq ι] (w : Place ω ρ → Nat) (s : Threads δ ω ρ ι) (i : ι)
    (p : Place ω ρ) : (s.move i p).total w+w (s.place i) = s.total w+w p := by
  have hnew := Finset.add_sum_erase Finset.univ (fun j => w ((s.move i p).place j))
    (Finset.mem_univ i)
  have hold := Finset.add_sum_erase Finset.univ (fun j => w (s.place j)) (Finset.mem_univ i)
  have hrest : ∑ j ∈ Finset.univ.erase i, w ((s.move i p).place j)
      = ∑ j ∈ Finset.univ.erase i, w (s.place j) :=
    Finset.sum_congr rfl fun j hj => by rw [move_other s p (Finset.ne_of_mem_erase hj)]
  simp only [move_self] at hnew
  simp only [total]
  omega

end Threads

namespace Monitor

variable {δ ω ρ ι : Type*} [Fintype ι] [DecidableEq ι] (P : Monitor δ ω ρ)

/-- One step of one thread. `notify_one` wakes any one of the threads asleep, and nobody when
there is none; the wait may also end by itself. -/
def step (s : Threads δ ω ρ ι) : MonitorEvent ω ι → Option (Threads δ ω ρ ι)
  | .call i o =>
    match s.place i with
    | .outside => some (s.move i (.entering o))
    | _ => none
  | .lock i =>
    match s.place i with
    | .entering o =>
      if s.owner = none then some {s.move i (.inside o) with owner := some i} else none
    | _ => none
  | .wait i =>
    match s.place i with
    | .inside o =>
      if P.ready o s.data then none else some {s.move i (.asleep o) with owner := none}
    | _ => none
  | .act i =>
    match s.place i with
    | .inside o =>
      if P.ready o s.data then
        let r := (P.act o s.data).2
        let p := if P.notifies o then Place.signalling o r else .leaving o r
        some {s.move i p with data := (P.act o s.data).1}
      else none
    | _ => none
  | .notify i woken =>
    match s.place i with
    | .signalling o r =>
      match woken with
      | none =>
        if ∃ j, (s.place j).isAsleep = true then none else some (s.move i (.leaving o r))
      | some j =>
        match s.place j with
        | .asleep p => some ((s.move i (.leaving o r)).move j (.entering p))
        | _ => none
    | _ => none
  | .unlock i =>
    match s.place i with
    | .leaving _ _ => some {s.move i .outside with owner := none}
    | _ => none
  | .spurious i =>
    match s.place i with
    | .asleep o => some (s.move i (.entering o))
    | _ => none

def machine (ι : Type*) [Fintype ι] [DecidableEq ι] (init : δ) :
    Machine (Threads δ ω ρ ι) (MonitorEvent ω ι) :=
  ⟨fun s => s = ⟨init,none,fun _ => .outside⟩,P.step⟩

/-- A stock that a call with `notify_one` raises by one at most, without waiting, and that each
other call waits for and lowers. -/
structure Stocked (stock : δ → Nat) : Prop where
  give_ready : ∀ o d, P.notifies o = true → P.ready o d = true
  give : ∀ o d, P.notifies o = true → stock (P.act o d).1 ≤ stock d+1
  take_ready : ∀ o d, P.notifies o = false → P.ready o d = false → stock d = 0
  take : ∀ o d, P.notifies o = false → P.ready o d = true → stock (P.act o d).1+1 ≤ stock d

/-- The places of threads that will look at the data again or wake one that does. -/
def awake : Place ω ρ → Nat
  | .entering o | .inside o => if P.notifies o then 0 else 1
  | .signalling .. => 1
  | .outside | .asleep _ | .leaving .. => 0

/-- How many steps the thread has before it at most, with those of the thread it will wake. -/
def work : Place ω ρ → Nat
  | .entering o => if P.notifies o then 7 else 3
  | .inside o => if P.notifies o then 6 else 2
  | .signalling .. => 5
  | .leaving .. => 1
  | .outside | .asleep _ => 0

/-- The mutex has the owner it says, only calls that do not notify sleep, and while one sleeps
every unit in stock has a thread awake for it. -/
structure Sound (stock : δ → Nat) (s : Threads δ ω ρ ι) : Prop where
  owner : ∀ i, s.owner = some i ↔ (s.place i).holds = true
  takers : ∀ i o, s.place i = .asleep o → P.notifies o = false
  supply : ∀ i, (s.place i).isAsleep = true → stock s.data ≤ s.total P.awake

/-- What each event asks of the state and makes of it. -/
inductive Moved (s : Threads δ ω ρ ι) : MonitorEvent ω ι → Threads δ ω ρ ι → Prop
  | call {i : ι} {o : ω} : s.place i = .outside → Moved s (.call i o) (s.move i (.entering o))
  | lock {i : ι} {o : ω} : s.place i = .entering o → s.owner = none →
      Moved s (.lock i) {s.move i (.inside o) with owner := some i}
  | wait {i : ι} {o : ω} : s.place i = .inside o → P.ready o s.data = false →
      Moved s (.wait i) {s.move i (.asleep o) with owner := none}
  | give {i : ι} {o : ω} : s.place i = .inside o → P.ready o s.data = true →
      P.notifies o = true →
      Moved s (.act i) {s.move i (.signalling o (P.act o s.data).2) with
        data := (P.act o s.data).1}
  | take {i : ι} {o : ω} : s.place i = .inside o → P.ready o s.data = true →
      P.notifies o = false →
      Moved s (.act i) {s.move i (.leaving o (P.act o s.data).2) with data := (P.act o s.data).1}
  | silent {i : ι} {o : ω} {r : ρ} : s.place i = .signalling o r →
      (∀ j, (s.place j).isAsleep = false) → Moved s (.notify i none) (s.move i (.leaving o r))
  | notify {i j : ι} {o p : ω} {r : ρ} : s.place i = .signalling o r → s.place j = .asleep p →
      Moved s (.notify i (some j)) ((s.move i (.leaving o r)).move j (.entering p))
  | unlock {i : ι} {o : ω} {r : ρ} : s.place i = .leaving o r →
      Moved s (.unlock i) {s.move i .outside with owner := none}
  | spurious {i : ι} {o : ω} : s.place i = .asleep o →
      Moved s (.spurious i) (s.move i (.entering o))

variable {P} {stock : δ → Nat} {s t : Threads δ ω ρ ι} {e : MonitorEvent ω ι} {i : ι}

theorem step_moved (h : P.step s e = some t) : P.Moved s e t := by
  cases e with
  | call i o =>
    cases hp : s.place i with
    | outside =>
      simp only [step,hp,Option.some.injEq] at h
      exact h ▸ .call hp
    | entering | inside | asleep | signalling | leaving => simp [step,hp] at h
  | lock i =>
    cases hp : s.place i with
    | entering o =>
      simp only [step,hp,Option.ite_none_right_eq_some,Option.some.injEq] at h
      exact h.2 ▸ .lock hp h.1
    | outside | inside | asleep | signalling | leaving => simp [step,hp] at h
  | wait i =>
    cases hp : s.place i with
    | inside o =>
      simp only [step,hp,Option.ite_none_left_eq_some,Option.some.injEq] at h
      exact h.2 ▸ .wait hp (Bool.eq_false_iff.mpr h.1)
    | outside | entering | asleep | signalling | leaving => simp [step,hp] at h
  | act i =>
    cases hp : s.place i with
    | inside o =>
      simp only [step,hp,Option.ite_none_right_eq_some,Option.some.injEq] at h
      obtain ⟨hready,rfl⟩ := h
      cases hn : P.notifies o with
      | true => exact .give hp hready hn
      | false => exact .take hp hready hn
    | outside | entering | asleep | signalling | leaving => simp [step,hp] at h
  | notify i woken =>
    cases hp : s.place i with
    | signalling o r =>
      cases woken with
      | none =>
        simp only [step,hp,Option.ite_none_left_eq_some,Option.some.injEq] at h
        exact h.2 ▸ .silent hp fun j => Bool.eq_false_iff.mpr fun hj => h.1 ⟨j,hj⟩
      | some j =>
        cases hq : s.place j with
        | asleep p =>
          simp only [step,hp,hq,Option.some.injEq] at h
          exact h ▸ .notify hp hq
        | outside | entering | inside | signalling | leaving => simp [step,hp,hq] at h
    | outside | entering | inside | asleep | leaving => simp [step,hp] at h
  | unlock i =>
    cases hp : s.place i with
    | leaving o r =>
      simp only [step,hp,Option.some.injEq] at h
      exact h ▸ .unlock hp
    | outside | entering | inside | asleep | signalling => simp [step,hp] at h
  | spurious i =>
    cases hp : s.place i with
    | asleep o =>
      simp only [step,hp,Option.some.injEq] at h
      exact h ▸ .spurious hp
    | outside | entering | inside | signalling | leaving => simp [step,hp] at h

omit [DecidableEq ι] in
theorem Sound.new (init : δ) : P.Sound stock (⟨init,none,fun _ : ι => .outside⟩) where
  owner i := by simp [Place.holds]
  takers i o h := nomatch h
  supply i h := nomatch h

omit [Fintype ι] in
/-- A move between two places that both hold the mutex, or both do not. -/
theorem owner_move (h : ∀ j, s.owner = some j ↔ (s.place j).holds = true) {p : Place ω ρ}
    (hp : p.holds = (s.place i).holds) (j : ι) :
    s.owner = some j ↔ ((s.move i p).place j).holds = true :=
  Threads.move_each (p := fun j q => s.owner = some j ↔ q.holds = true) h
    (by rw [hp]; exact h i) j

theorem Sound.owner_lock (h : P.Sound stock s) {p : Place ω ρ} (hp : p.holds = true)
    (hfree : s.owner = none) (j : ι) :
    some i = some j ↔ ((s.move i p).place j).holds = true := by
  by_cases hj : j = i
  · obtain rfl := hj
    simp [Threads.move_self,hp]
  · have hno : (s.place j).holds = false := by
      rw [← Bool.not_eq_true,← h.owner j,hfree]
      exact nofun
    rw [Threads.move_other s p hj,hno]
    simpa using Ne.symm hj

theorem Sound.owner_release (h : P.Sound stock s) {p : Place ω ρ} (hp : p.holds = false)
    (hi : (s.place i).holds = true) (j : ι) :
    none = some j ↔ ((s.move i p).place j).holds = true := by
  by_cases hj : j = i
  · obtain rfl := hj
    simp [Threads.move_self,hp]
  · have hno : (s.place j).holds = false := by
      rw [← Bool.not_eq_true,← h.owner j,(h.owner i).mpr hi]
      simpa using Ne.symm hj
    simp [Threads.move_other s p hj,hno]

/-- A move after which the stock has grown by no more than the threads awake. -/
theorem Sound.supply_move (h : P.Sound stock s) {p : Place ω ρ} {d : δ}
    (hp : p.isAsleep = false)
    (hle : stock d+P.awake (s.place i) ≤ stock s.data+P.awake p) (j : ι)
    (hj : ((s.move i p).place j).isAsleep = true) : stock d ≤ (s.move i p).total P.awake := by
  have hne : j ≠ i := by
    intro hji
    rw [hji,Threads.move_self,hp] at hj
    cases hj
  rw [Threads.move_other s p hne] at hj
  have hold := h.supply j hj
  have htotal := s.total_move P.awake i p
  omega

theorem Sound.takers_move (h : P.Sound stock s) {p : Place ω ρ}
    (hp : ∀ o, p = .asleep o → P.notifies o = false) (j : ι) (o : ω)
    (hj : (s.move i p).place j = .asleep o) : P.notifies o = false :=
  Threads.move_each (p := fun _ q => ∀ o, q = .asleep o → P.notifies o = false) h.takers hp j o hj

theorem Sound.step (hP : P.Stocked stock) (h : P.Sound stock s) (ht : P.step s e = some t) :
    P.Sound stock t := by
  cases step_moved ht with
  | call hi =>
    exact {
      owner := owner_move h.owner (by rw [hi]; rfl)
      takers := h.takers_move nofun
      supply := h.supply_move rfl (by rw [hi]; exact Nat.le_add_right ..) }
  | lock hi hfree =>
    exact {
      owner := h.owner_lock rfl hfree
      takers := h.takers_move nofun
      supply := h.supply_move rfl (by rw [hi]; exact Nat.le_refl _) }
  | @wait i o hi hready =>
    have htaker : P.notifies o = false := by
      cases hn : P.notifies o with
      | false => rfl
      | true => exact absurd (hP.give_ready o s.data hn) (by simp [hready])
    have hnone := hP.take_ready o s.data htaker hready
    exact {
      owner := h.owner_release rfl (by rw [hi]; rfl)
      takers := h.takers_move fun o' ho' => by
        cases ho'
        exact htaker
      supply := fun j _ => by
        change stock s.data ≤ _
        omega }
  | @give i o hi hready hn =>
    have hraise := hP.give o s.data hn
    exact {
      owner := owner_move h.owner (by rw [hi]; rfl)
      takers := h.takers_move nofun
      supply := h.supply_move rfl (by
        rw [hi]
        simp only [awake,hn,if_true]
        omega) }
  | @take i o hi hready hn =>
    have hlower := hP.take o s.data hn hready
    exact {
      owner := owner_move h.owner (by rw [hi]; rfl)
      takers := h.takers_move nofun
      supply := h.supply_move rfl (by
        rw [hi]
        simp only [awake,hn,Bool.false_eq_true,if_false]
        omega) }
  | @silent i o r hi hnobody =>
    exact {
      owner := owner_move h.owner (by rw [hi]; rfl)
      takers := h.takers_move nofun
      supply := fun j hj => by
        have hall := Threads.move_each (p := fun _ q => q.isAsleep = false) hnobody
          (show (Place.leaving o r : Place ω ρ).isAsleep = false from rfl) (i := i) j
        rw [hall] at hj
        cases hj }
  | @notify i j o p r hi hj =>
    have hne : j ≠ i := by
      intro hji
      rw [hji,hi] at hj
      cases hj
    have hj' : (s.move i (.leaving o r)).place j = .asleep p := by
      rw [Threads.move_other s _ hne,hj]
    have hfirst := s.total_move P.awake i (.leaving o r)
    have hsecond := (s.move i (.leaving o r)).total_move P.awake j (.entering p)
    have hp := h.takers j p hj
    rw [hi] at hfirst
    rw [hj'] at hsecond
    simp only [awake,hp,Bool.false_eq_true,if_false] at hfirst hsecond
    exact {
      owner := owner_move (s := s.move i (.leaving o r))
        (owner_move h.owner (by rw [hi]; rfl)) (by rw [hj']; rfl)
      takers := fun k q hk => Threads.move_each
        (p := fun _ x => ∀ q, x = .asleep q → P.notifies q = false)
        (h.takers_move (p := .leaving o r) nofun) (fun _ hx => by cases hx) k q hk
      supply := fun k _ => by
        have hold := h.supply j (by rw [hj]; rfl)
        change stock s.data ≤ _
        omega }
  | unlock hi =>
    exact {
      owner := h.owner_release rfl (by rw [hi]; rfl)
      takers := h.takers_move nofun
      supply := h.supply_move rfl (by rw [hi]; exact Nat.le_refl _) }
  | spurious hi =>
    exact {
      owner := owner_move h.owner (by rw [hi]; rfl)
      takers := h.takers_move nofun
      supply := h.supply_move rfl (by rw [hi]; exact Nat.le_add_right ..) }

theorem Sound.path (hP : P.Stocked stock) {ok : Threads δ ω ρ ι → MonitorEvent ω ι → Prop}
    {init : δ} (hs : (P.machine ι init).init s) (h : (P.machine ι init).Path ok s t) :
    P.Sound stock t :=
  h.invariant (I := P.Sound stock) (fun _ _ _ hi _ ht => hi.step hP ht) (hs ▸ Sound.new init)

omit [Fintype ι] [DecidableEq ι] in
theorem work_le (p : Place ω ρ) : P.work p ≤ 7 := by
  cases p with
  | entering o | inside o => cases hn : P.notifies o <;> simp [work,hn]
  | outside | asleep | signalling | leaving => simp [work]

theorem work_move {p : Place ω ρ} (hp : P.work p+1 ≤ P.work (s.place i)) :
    (s.move i p).total P.work+1 ≤ s.total P.work := by
  have hm := s.total_move P.work i p
  omega

theorem work_raise {p : Place ω ρ} {n : Nat} (hp : P.work p ≤ P.work (s.place i)+n) :
    (s.move i p).total P.work ≤ s.total P.work+n := by
  have hm := s.total_move P.work i p
  omega

/-- Every step that a thread owes leaves less work, and an event adds its cost at most. -/
theorem Sound.work (h : P.Sound stock s) (ht : P.step s e = some t) :
    t.total P.work+(if e.busy then 1 else 0) ≤ s.total P.work+e.cost := by
  cases step_moved ht with
  | @call i o hi =>
    refine work_raise ?_
    rw [hi]
    cases hn : P.notifies o <;> simp [Monitor.work,MonitorEvent.cost,hn]
  | @lock i o hi =>
    refine work_move ?_
    rw [hi]
    cases hn : P.notifies o <;> simp [Monitor.work,hn]
  | @wait i o hi =>
    refine work_move ?_
    rw [hi]
    cases hn : P.notifies o <;> simp [Monitor.work,hn]
  | @give i o hi _ hn =>
    refine work_move ?_
    rw [hi]
    simp [Monitor.work,hn]
  | @take i o hi _ hn =>
    refine work_move ?_
    rw [hi]
    simp [Monitor.work,hn]
  | @silent i o r hi =>
    refine work_move ?_
    rw [hi]
    simp [Monitor.work]
  | @notify i j o p r hi hj =>
    have hne : j ≠ i := by
      intro hji
      rw [hji,hi] at hj
      cases hj
    have hfirst := s.total_move P.work i (.leaving o r)
    have hsecond := (s.move i (.leaving o r)).total_move P.work j (.entering p)
    rw [hi] at hfirst
    rw [Threads.move_other s _ hne,hj] at hsecond
    simp only [Monitor.work,h.takers j p hj,Bool.false_eq_true,if_false] at hfirst hsecond
    simp only [MonitorEvent.busy,MonitorEvent.cost,if_true]
    omega
  | @unlock i o r hi =>
    refine work_move ?_
    rw [hi]
    simp [Monitor.work]
  | @spurious i o hi =>
    refine work_raise ?_
    rw [hi]
    simp [Monitor.work,h.takers i o hi,MonitorEvent.cost]

/-- No thread can take a step that it owes. -/
def Quiet (P : Monitor δ ω ρ) (s : Threads δ ω ρ ι) : Prop :=
  ∀ e : MonitorEvent ω ι, e.busy = true → P.step s e = none

theorem Sound.quiet_owner (h : P.Sound stock s) (hq : P.Quiet s) : s.owner = none := by
  cases ho : s.owner with
  | none => rfl
  | some i =>
    have hi := (h.owner i).mp ho
    cases hp : s.place i with
    | inside o =>
      cases hready : P.ready o s.data with
      | true => simpa [Monitor.step,hp,hready] using hq (.act i) rfl
      | false => simpa [Monitor.step,hp,hready] using hq (.wait i) rfl
    | signalling o r =>
      by_cases hsome : ∃ j, (s.place j).isAsleep = true
      · obtain ⟨j,hj⟩ := hsome
        obtain ⟨p,hj⟩ := Place.isAsleep_iff.mp hj
        simpa [Monitor.step,hp,hj] using hq (.notify i (some j)) rfl
      · have hno := hq (.notify i none) rfl
        simp only [Monitor.step,hp,if_neg hsome] at hno
        cases hno
    | leaving o r => simpa [Monitor.step,hp] using hq (.unlock i) rfl
    | outside | entering o | asleep o =>
      rw [hp] at hi
      cases hi

theorem Sound.quiet_place (h : P.Sound stock s) (hq : P.Quiet s) (i : ι) :
    s.place i = .outside ∨ (s.place i).isAsleep = true := by
  have hfree := h.quiet_owner hq
  have hno : (s.place i).holds = false := by
    rw [← Bool.not_eq_true,← h.owner i,hfree]
    exact nofun
  cases hp : s.place i with
  | outside => exact .inl rfl
  | asleep o => exact .inr rfl
  | entering o => simpa [Monitor.step,hp,hfree] using hq (.lock i) rfl
  | inside o | signalling o r | leaving o r =>
    rw [hp] at hno
    cases hno

theorem quiet_of_places (h : ∀ i, s.place i = .outside ∨ (s.place i).isAsleep = true) :
    P.Quiet s := by
  intro e he
  have hno (i : ι) : s.place i = .outside ∨ ∃ o, s.place i = .asleep o :=
    (h i).imp_right Place.isAsleep_iff.mp
  cases e with
  | call | spurious => cases he
  | lock i | wait i | act i | notify i woken | unlock i =>
    obtain hi | ⟨o,hi⟩ := hno i
    · simp [Monitor.step,hi]
    · simp [Monitor.step,hi]

/-- When no step is owed, a thread sleeps only on an empty stock. -/
theorem Sound.quiet_stock (h : P.Sound stock s) (hq : P.Quiet s)
    (hi : (s.place i).isAsleep = true) : stock s.data = 0 := by
  have hle := h.supply i hi
  have hzero : s.total P.awake = 0 := Threads.total_eq_zero fun j => by
    obtain hj | hj := h.quiet_place hq j
    · rw [hj]
      rfl
    · obtain ⟨o,hj⟩ := Place.isAsleep_iff.mp hj
      rw [hj]
      rfl
  omega

/-- The owed steps of a run are bounded by the work at its start, with 7 for every call and 3
for every spurious wakeup of the run. -/
theorem Sound.exec (hP : P.Stocked stock) (h : P.Sound stock s) {init : δ}
    {es : List (MonitorEvent ω ι)} (ht : (P.machine ι init).exec Machine.always s es = some t) :
    P.Sound stock t ∧
      es.countP MonitorEvent.busy ≤ s.total P.work+(es.map MonitorEvent.cost).sum := by
  obtain ⟨hsound,hle⟩ := (P.machine ι init).exec_potential (I := P.Sound stock)
    (fun s => s.total P.work) MonitorEvent.cost MonitorEvent.busy
    (fun _ _ _ hi ht => ⟨hi.step hP ht,hi.work ht⟩) es h ht
  exact ⟨hsound,by omega⟩

end Monitor

end SRaftMuduo
