import Mathlib.Algebra.Ring.Int.Defs
import Mathlib.Algebra.Ring.Nat
import Mathlib.Data.List.Basic

namespace SRaftMuduo

/-- The loops of type `L` that a pool hands out. -/
structure EventLoopThreadPool (L : Type*) where
  baseloop : L
  started : Bool
  numThreads : Int
  next : Nat
  loops : List L

namespace EventLoopThreadPool

variable {L : Type*}

def new (baseloop : L) : EventLoopThreadPool L := ⟨baseloop,false,0,0,[]⟩

def SetThreadNum (p : EventLoopThreadPool L) (numThreads : Int) : EventLoopThreadPool L :=
  {p with numThreads := numThreads}

/-- `startloop i` is the loop that the thread number `i` publishes. -/
def Start (p : EventLoopThreadPool L) (startloop : Nat → L) : EventLoopThreadPool L :=
  {p with
    started := true
    loops := p.loops++(List.range p.numThreads.toNat).map startloop}

/-- Not defined when `next_` is past the vector, or when its increment is past `int`. -/
def GetNextLoop (p : EventLoopThreadPool L) : Option (L × EventLoopThreadPool L) :=
  if p.loops = [] then some (p.baseloop,p)
  else
    p.loops[p.next]?.bind fun loop =>
      let next := p.next+1
      if next < 2^31 then
        some (loop,{p with next := if p.loops.length < next then 0 else next})
      else none

/-- The call number `k` of `GetNextLoop`, counted from zero. -/
def call : Nat → EventLoopThreadPool L → Option (L × EventLoopThreadPool L)
  | 0, p => p.GetNextLoop
  | k+1, p => p.GetNextLoop.bind fun r => call k r.2

variable {p : EventLoopThreadPool L}

/-- A call below the end of the vector moves `next_` by one, up to the end itself. -/
theorem GetNextLoop_lt (h : p.next < p.loops.length) (hint : p.loops.length < 2^31) :
    p.GetNextLoop = some (p.loops[p.next],{p with next := p.next+1}) := by
  have hne : p.loops ≠ [] := List.ne_nil_of_length_pos (by omega)
  rw [GetNextLoop,if_neg hne,List.getElem?_eq_getElem h,Option.bind_some]
  dsimp only
  rw [if_pos (by omega),if_neg (by omega)]

theorem GetNextLoop_end (h : p.next = p.loops.length) (hne : p.loops ≠ []) :
    p.GetNextLoop = none := by
  rw [GetNextLoop,if_neg hne,List.getElem?_eq_none (by omega),Option.bind_none]

/-- The calls hand out the rest of the vector once, and the next one reads past it. -/
theorem call_eq (hne : p.loops ≠ []) (hle : p.next ≤ p.loops.length)
    (hint : p.loops.length < 2^31) (k : Nat) :
    (p.call k).map Prod.fst = p.loops[p.next+k]? := by
  induction k generalizing p with
  | zero =>
    rw [call,Nat.add_zero]
    by_cases h : p.next < p.loops.length
    · rw [GetNextLoop_lt h hint,List.getElem?_eq_getElem h]
      rfl
    · rw [GetNextLoop_end (by omega) hne,List.getElem?_eq_none (by omega)]
      rfl
  | succ k ih =>
    rw [call]
    by_cases h : p.next < p.loops.length
    · rw [GetNextLoop_lt h hint,Option.bind_some,ih (p := {p with next := p.next+1}) hne h hint]
      show p.loops[p.next+1+k]? = p.loops[p.next+(k+1)]?
      rw [Nat.add_assoc,Nat.add_comm 1 k]
    · rw [GetNextLoop_end (by omega) hne,List.getElem?_eq_none (by omega)]
      rfl

/-- Of a pool started with `n` threads the first `n` calls return the loops in turn, and
there is no defined call after them. -/
theorem round_robin_iff {n : Nat} (hn : 0 < n) (hint : n < 2^31) (baseloop : L)
    (startloop : Nat → L) (k : Nat) :
    (((((new baseloop).SetThreadNum n).Start startloop).call k).map Prod.fst =
      some (startloop (k%n))) ↔ k < n := by
  let p := ((new baseloop).SetThreadNum n).Start startloop
  have hloops : p.loops = (List.range n).map startloop := rfl
  have hlen : p.loops.length = n := by rw [hloops,List.length_map,List.length_range]
  have hne : p.loops ≠ [] := List.ne_nil_of_length_pos (by omega)
  have hcall : (p.call k).map Prod.fst = p.loops[k]? := by
    rw [call_eq hne (Nat.zero_le _) (by omega)]
    show p.loops[0+k]? = p.loops[k]?
    rw [Nat.zero_add]
  show (p.call k).map Prod.fst = some (startloop (k%n)) ↔ k < n
  rw [hcall]
  by_cases h : k < n
  · rw [List.getElem?_eq_getElem (by omega),Nat.mod_eq_of_lt h]
    simp [hloops,h]
  · rw [List.getElem?_eq_none (by omega)]
    simp [h]

theorem round_robin_three :
    (((((new 9).SetThreadNum 3).Start id).call 2).map Prod.fst = some (id (2%3))) :=
  (round_robin_iff (by decide) (by decide) 9 id 2).mpr (by decide)

/-- Two loops, and the third call. -/
theorem round_robin_past : (((new 9).SetThreadNum 2).Start id).call 2 = none := by
  decide +kernel

end EventLoopThreadPool

end SRaftMuduo
