import Mathlib.Data.List.Basic

namespace SRaftMuduo

/-- The account of a queue: what entered it is what left it and then what waits. -/
structure Fifo (α : Type*) where
  entered : List α
  left : List α
  waiting : List α
  balanced : left++waiting = entered

namespace Fifo

variable {α : Type*}

def empty (α : Type*) : Fifo α := ⟨[],[],[],rfl⟩

def push (q : Fifo α) (xs : List α) : Fifo α :=
  ⟨q.entered++xs,q.left,q.waiting++xs,by rw [← List.append_assoc,q.balanced]⟩

/-- The first `n` elements leave, or all when there are fewer. -/
def pop (q : Fifo α) (n : Nat) : Fifo α :=
  ⟨q.entered,q.left++q.waiting.take n,q.waiting.drop n,
    by rw [List.append_assoc,List.take_append_drop,q.balanced]⟩

end Fifo

end SRaftMuduo
