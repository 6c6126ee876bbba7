import SRaftMuduo.Framework.Machine
import SRaftMuduo.Framework.Quorum
import Mathlib.Logic.Function.Basic

namespace SRaftMuduo

namespace Replication

inductive Role
  | follower
  | candidate
  | leader
  deriving DecidableEq

/-- Nodes that elect a leader for each term and copy its log. `disk` is the term a node
will restart with. The other fields are history: whom a node voted for in a term, the log
it campaigned with, who won a term, the longest log the winner has had in it, and how much
of that log a node has taken over. -/
structure Core (N E : Type*) where
  role : N → Role
  cur : N → Nat
  disk : N → Nat
  log : N → List E
  vote : N → Nat → Option N
  elect : N → Nat → List E
  won : Nat → Option N
  canon : Nat → List E
  acked : N → Nat → Nat

inductive Label (N E : Type*)
  | campaign (v : N)
  | grant (v c : N) (t : Nat)
  | raise (v : N) (t : Nat)
  | follow (v : N) (t d : Nat)
  | save (v : N)
  | restart (v : N)
  | win (v : N)
  | append (v : N) (e : E)
  | accept (v : N) (t k : Nat)

variable {N E : Type*} [DecidableEq N]

def update₂ {α : Type*} (f : N → Nat → α) (v : N) (t : Nat) (x : α) : N → Nat → α :=
  fun u s => if u = v ∧ s = t then x else f u s

@[simp] theorem update₂_self {α : Type*} (f : N → Nat → α) (v : N) (t : Nat) (x : α) :
    update₂ f v t x v t = x := by
  simp [update₂]

@[simp] theorem update₂_of_ne {α : Type*} (f : N → Nat → α) {v u : N} (h : u ≠ v) (t : Nat)
    (x : α) : update₂ f v t x u = f u := by
  funext s
  simp [update₂,h]

theorem update₂_apply {α : Type*} (f : N → Nat → α) (v u : N) (t s : Nat) (x : α) :
    update₂ f v t x u s = if u = v ∧ s = t then x else f u s := rfl

namespace Core

def initial : Core N E where
  role := fun _ => .follower
  cur := fun _ => 0
  disk := fun _ => 0
  log := fun _ => []
  vote := fun _ _ => none
  elect := fun _ _ => []
  won := fun _ => none
  canon := fun _ => []
  acked := fun _ _ => 0

def apply (g : Core N E) : Label N E → Core N E
  | .campaign v => {g with
      role := Function.update g.role v .candidate
      cur := Function.update g.cur v (g.cur v+1)
      disk := Function.update g.disk v (g.cur v+1)
      vote := update₂ g.vote v (g.cur v+1) (some v)
      elect := update₂ g.elect v (g.cur v+1) (g.log v)}
  | .grant v c t => {g with
      role := Function.update g.role v (if g.role v = .leader then .follower else g.role v)
      cur := Function.update g.cur v t
      disk := Function.update g.disk v t
      vote := update₂ g.vote v t (some c)}
  | .raise v t => {g with cur := Function.update g.cur v t}
  | .follow v t d => {g with
      role := Function.update g.role v .follower
      cur := Function.update g.cur v t
      disk := Function.update g.disk v d}
  | .save v => {g with disk := Function.update g.disk v (g.cur v)}
  | .restart v => {g with
      role := Function.update g.role v .follower
      cur := Function.update g.cur v (g.disk v)}
  | .win v => {g with
      role := Function.update g.role v .leader
      won := Function.update g.won (g.cur v) (some v)
      canon := Function.update g.canon (g.cur v) (g.log v)}
  | .append v e => {g with
      log := Function.update g.log v (g.log v++[e])
      canon := Function.update g.canon (g.cur v) (g.log v++[e])
      disk := Function.update g.disk v (g.cur v)
      acked := update₂ g.acked v (g.cur v) ((g.log v).length+1)}
  | .accept v t k => {g with
      log := Function.update g.log v ((g.canon t).take k)
      disk := Function.update g.disk v (g.cur v)
      acked := update₂ g.acked v t k}

end Core

/-- The machine of these steps; what may be done when is left to the conditions on its
paths. -/
def replication (N E : Type*) [DecidableEq N] : Machine (Core N E) (Label N E) where
  init g := g = .initial
  step g l := some (g.apply l)

/-- The node that takes a step. -/
def Label.node : Label N E → N
  | .campaign v => v
  | .grant v _ _ => v
  | .raise v _ => v
  | .follow v _ _ => v
  | .save v => v
  | .restart v => v
  | .win v => v
  | .append v _ => v
  | .accept v _ _ => v

/-- The steps that change a log. -/
def Label.writes : Label N E → Bool
  | .append _ _ => true
  | .accept _ _ _ => true
  | _ => false

/-- The steps by which a node says something about the log of another. -/
def Label.answers : Label N E → Bool
  | .grant _ _ _ => true
  | .accept _ _ _ => true
  | _ => false

/-- A step leaves the state of every other node alone. -/
theorem Core.apply_other (g : Core N E) (l : Label N E) {u : N} (h : u ≠ l.node) :
    (g.apply l).role u = g.role u ∧ (g.apply l).cur u = g.cur u ∧
      (g.apply l).disk u = g.disk u ∧ (g.apply l).log u = g.log u ∧
      (g.apply l).vote u = g.vote u := by
  cases l <;> simp_all [Core.apply,Label.node]

/-- The steps of a list, in order. -/
def Core.applyAll (g : Core N E) (ls : List (Label N E)) : Core N E := ls.foldl Core.apply g

/-- Each step of the list may be taken when its turn comes. -/
def Allowed (may : Core N E → Label N E → Prop) : Core N E → List (Label N E) → Prop
  | _, [] => True
  | g, l::ls => may g l ∧ Allowed may (g.apply l) ls

theorem Allowed.path {may : Core N E → Label N E → Prop} {g : Core N E}
    {ls : List (Label N E)} (h : Allowed may g ls) :
    (replication N E).Path may g (g.applyAll ls) := by
  induction ls generalizing g with
  | nil => exact .refl g
  | cons l ls ih =>
    obtain ⟨hl,hls⟩ := h
    exact ((Machine.Path.refl g).tail hl rfl).trans (ih hls)

/-- What each allowed step meets besides. -/
theorem Allowed.upgrade {may must : Core N E → Label N E → Prop} {g : Core N E}
    {ls : List (Label N E)} (h : Allowed may g ls)
    (h' : Allowed (fun g l => may g l → must g l) g ls) : Allowed must g ls := by
  induction ls generalizing g with
  | nil => exact trivial
  | cons l ls ih => exact ⟨h'.1 h.1,ih h.2 h'.2⟩

theorem Core.applyAll_other (g : Core N E) {ls : List (Label N E)} {v u : N}
    (h : ∀ l ∈ ls, l.node = v) (hu : u ≠ v) :
    (g.applyAll ls).role u = g.role u ∧ (g.applyAll ls).cur u = g.cur u ∧
      (g.applyAll ls).disk u = g.disk u ∧ (g.applyAll ls).log u = g.log u ∧
      (g.applyAll ls).vote u = g.vote u := by
  induction ls generalizing g with
  | nil => exact ⟨rfl,rfl,rfl,rfl,rfl⟩
  | cons l ls ih =>
    have hl : u ≠ l.node := (h l List.mem_cons_self) ▸ hu
    obtain ⟨hr,hc,hd,hg,hv⟩ := g.apply_other l hl
    obtain ⟨hr',hc',hd',hg',hv'⟩ := ih (g.apply l) (fun x hx => h x (List.mem_cons_of_mem _ hx))
    exact ⟨hr'.trans hr,hc'.trans hc,hd'.trans hd,hg'.trans hg,hv'.trans hv⟩

end Replication

end SRaftMuduo
