import Mathlib.Algebra.Ring.Nat
import Mathlib.Data.List.Basic

namespace SRaftMuduo

/-- A machine that takes one event at a time; an event it cannot take gives `none`. -/
structure Machine (σ ε : Type*) where
  init : σ → Prop
  step : σ → ε → Option σ

namespace Machine

variable {σ ε : Type*} {M : Machine σ ε} {ok good : σ → ε → Prop} {s t u : σ}

/-- The runs all of whose steps satisfy `ok`, a condition on the event and on the
state before it. -/
inductive Path (M : Machine σ ε) (ok : σ → ε → Prop) : σ → σ → Prop
  | refl (s : σ) : Path M ok s s
  | tail {s t u : σ} {e : ε} : Path M ok s t → ok t e → M.step t e = some u → Path M ok s u

/-- Every step is allowed. -/
def always : σ → ε → Prop := fun _ _ => True

theorem Path.trans (h : Path M ok s t) (k : Path M ok t u) : Path M ok s u := by
  induction k with
  | refl => exact h
  | tail _ hok hs ih => exact ih.tail hok hs

theorem Path.mono (hi : ∀ s e, ok s e → good s e) (h : Path M ok s t) : Path M good s t := by
  induction h with
  | refl => exact .refl _
  | tail _ hok hs ih => exact ih.tail (hi _ _ hok) hs

/-- The invariant rule: what every allowed step keeps holds at the end of a run. -/
theorem Path.invariant {I : σ → Prop}
    (hstep : ∀ s e t, I s → ok s e → M.step s e = some t → I t)
    (h : Path M ok s t) (hs : I s) : I t := by
  induction h with
  | refl => exact hs
  | tail _ hok ht ih => exact hstep _ _ _ ih hok ht

/-- The rule of forward simulation: what every allowed step can be answered with, a run
can be answered with. -/
theorem Path.simulates {α δ : Type*} {A : Machine α δ} {may : α → δ → Prop}
    {R : σ → α → Prop} {a : α}
    (hstep : ∀ s a e t, R s a → ok s e → M.step s e = some t → ∃ b, A.Path may a b ∧ R t b)
    (h : M.Path ok s t) (hs : R s a) : ∃ b, A.Path may a b ∧ R t b := by
  induction h with
  | refl => exact ⟨a,.refl a,hs⟩
  | tail _ hok ht ih =>
    obtain ⟨b,hb,hr⟩ := ih
    obtain ⟨b',hb',hr'⟩ := hstep _ _ _ _ hr hok ht
    exact ⟨b',hb.trans hb',hr'⟩

/-- The rule of refinement by a function: where every allowed step is one of `A`, or none there,
a run is one of `A`. -/
theorem Path.image {α δ : Type*} {A : Machine α δ} {may : α → δ → Prop} {f : σ → α}
    (hstep : ∀ s e t, ok s e → M.step s e = some t →
      (∃ d, may (f s) d ∧ A.step (f s) d = some (f t)) ∨ f t = f s)
    (h : M.Path ok s t) : A.Path may (f s) (f t) := by
  induction h with
  | refl => exact .refl _
  | tail _ hok hs ih =>
    rcases hstep _ _ _ hok hs with ⟨d,hd,hs⟩ | hf
    · exact ih.tail hd hs
    · rwa [hf]

/-- The machine with a record of what `obs` notes of each step. -/
def record {α : Type*} (M : Machine σ ε) (obs : σ → ε → List α) : Machine (σ × List α) ε where
  init := fun p => M.init p.1 ∧ p.2 = []
  step := fun p e => (M.step p.1 e).map fun t => (t,p.2++obs p.1 e)

theorem record_step {α : Type*} {obs : σ → ε → List α} {p q : σ × List α} {e : ε}
    (h : (M.record obs).step p e = some q) :
    M.step p.1 e = some q.1 ∧ q.2 = p.2++obs p.1 e := by
  obtain ⟨t,ht,rfl⟩ := Option.map_eq_some_iff.mp h
  exact ⟨ht,rfl⟩

/-- The machine with a ghost state, which `next` brings up to date at each step. -/
def withGhost {γ : Type*} (M : Machine σ ε) (next : γ → σ → ε → γ) : Machine (σ × γ) ε where
  init := fun p => M.init p.1
  step := fun p e => (M.step p.1 e).map fun t => (t,next p.2 p.1 e)

theorem withGhost_step {γ : Type*} {next : γ → σ → ε → γ} {p q : σ × γ} {e : ε}
    (h : (M.withGhost next).step p e = some q) :
    M.step p.1 e = some q.1 ∧ q.2 = next p.2 p.1 e := by
  obtain ⟨t,ht,rfl⟩ := Option.map_eq_some_iff.mp h
  exact ⟨ht,rfl⟩

/-- A run with a ghost state is a run. -/
theorem Path.forget {γ : Type*} {next : γ → σ → ε → γ} {may : σ × γ → ε → Prop} {p q : σ × γ}
    (h : (M.withGhost next).Path may p q) : M.Path always p.1 q.1 := by
  induction h with
  | refl => exact .refl _
  | tail _ _ hs ih => exact ih.tail trivial (withGhost_step hs).1

/-- Runs a list of events, each checked against `ok` first. -/
def exec (M : Machine σ ε) (ok : σ → ε → Prop) [∀ s e, Decidable (ok s e)] :
    σ → List ε → Option σ
  | s, [] => some s
  | s, e::es =>
    if ok s e then
      match M.step s e with
      | none => none
      | some t => M.exec ok t es
    else none

theorem exec_path [∀ s e, Decidable (ok s e)] (es : List ε) (h : M.exec ok s es = some t) :
    Path M ok s t := by
  induction es generalizing s with
  | nil =>
    obtain rfl := Option.some.inj h
    exact .refl s
  | cons e es ih =>
    rw [exec] at h
    split_ifs at h with hok
    split at h
    · exact absurd h (by simp)
    · next u hu => exact ((Path.refl s).tail hok hu).trans (ih h)

/-- A run found by evaluation, with what can be checked of the state at its end. -/
theorem exec_any (M : Machine σ ε) (ok : σ → ε → Prop) [∀ s e, Decidable (ok s e)]
    (s : σ) (es : List ε) (p : σ → Bool) (h : (M.exec ok s es).any p = true) :
    ∃ t, Path M ok s t ∧ p t = true := by
  cases he : M.exec ok s es with
  | none => simp [he] at h
  | some t => exact ⟨t,exec_path es he,by simpa [he] using h⟩

instance (s : σ) (e : ε) : Decidable (always s e) := .isTrue trivial

/-- Some run leads to a state with `P`. -/
def Can (M : Machine σ ε) (ok : σ → ε → Prop) (P : σ → Prop) (s : σ) : Prop :=
  ∃ t, Path M ok s t ∧ P t

section Can

variable {P Q : σ → Prop}

theorem Can.here (h : P s) : M.Can ok P s := ⟨s,.refl s,h⟩

theorem Can.mono (h : M.Can ok P s) (hpq : ∀ t, P t → Q t) : M.Can ok Q s := by
  obtain ⟨t,ht,hp⟩ := h
  exact ⟨t,ht,hpq t hp⟩

theorem Can.bind (h : M.Can ok P s) (k : ∀ t, P t → M.Can ok Q t) : M.Can ok Q s := by
  obtain ⟨t,ht,hp⟩ := h
  obtain ⟨u,hu,hq⟩ := k t hp
  exact ⟨u,ht.trans hu,hq⟩

theorem Can.step {e : ε} (hok : ok s e) (hs : M.step s e = some t) (h : M.Can ok P t) :
    M.Can ok P s := by
  obtain ⟨u,hu,hp⟩ := h
  exact ⟨u,((Path.refl s).tail hok hs).trans hu,hp⟩

/-- The rule of loops over a list: each turn can take the first item off. -/
theorem Can.each {α : Type*} {I : List α → σ → Prop}
    (hturn : ∀ x xs s, I (x::xs) s → M.Can ok (I xs) s) (xs : List α) (h : I xs s) :
    M.Can ok (I []) s := by
  induction xs generalizing s with
  | nil => exact .here h
  | cons x xs ih => exact (hturn x xs s h).bind fun t ht => ih ht

end Can

/-- The rule of potentials: where every busy step lowers `pot` by one at least and an event
raises it by its cost at most, the busy steps of a run are bounded. -/
theorem exec_potential [∀ s e, Decidable (ok s e)] {I : σ → Prop} (pot : σ → Nat)
    (cost : ε → Nat) (busy : ε → Bool)
    (hstep : ∀ s e t, I s → M.step s e = some t →
      I t ∧ pot t+(if busy e then 1 else 0) ≤ pot s+cost e)
    (es : List ε) (hs : I s) (h : M.exec ok s es = some t) :
    I t ∧ pot t+es.countP busy ≤ pot s+(es.map cost).sum := by
  induction es generalizing s with
  | nil =>
    obtain rfl := Option.some.inj h
    simpa using hs
  | cons e es ih =>
    rw [exec] at h
    split_ifs at h
    split at h
    · exact absurd h (by simp)
    · next u hu =>
      obtain ⟨hi,hle⟩ := hstep _ _ _ hs hu
      obtain ⟨ht,hrest⟩ := ih hi h
      rw [List.countP_cons,List.map_cons,List.sum_cons]
      exact ⟨ht,by omega⟩

end Machine

end SRaftMuduo
