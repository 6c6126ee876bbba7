import Mathlib.Data.List.Basic

namespace SRaftMuduo

namespace Slice

variable {α : Type*} {mem data : List α} {i j k n start : Nat}

/-- The cells of `mem` from `i` up to, not including, `j`. -/
def slice (mem : List α) (i j : Nat) : List α := (mem.take j).drop i

/-- `mem` with `data` written over its cells from `start` on. -/
def overwrite (mem : List α) (start : Nat) (data : List α) : List α :=
  mem.take start++data++mem.drop (start+data.length)

/-- `mem` cut or filled up to `n` cells. -/
def resize (mem : List α) (n : Nat) (fill : α) : List α :=
  mem.take n++List.replicate (n-mem.length) fill

/-- A read that is only defined inside `mem`. -/
def load (mem : List α) (i j : Nat) : Option (List α) :=
  if i ≤ j ∧ j ≤ mem.length then some (slice mem i j) else none

/-- A write that is only defined inside `mem`. -/
def store (mem : List α) (start : Nat) (data : List α) : Option (List α) :=
  if start+data.length ≤ mem.length then some (overwrite mem start data) else none

theorem slice_length (h : j ≤ mem.length) : (slice mem i j).length = j-i := by
  rw [slice,List.length_drop,List.length_take,Nat.min_eq_left h]

theorem slice_empty (h : j ≤ i) : slice mem i j = [] := by
  apply List.drop_eq_nil_of_le
  rw [List.length_take]
  omega

theorem slice_drop (n : Nat) : (slice mem i j).drop n = slice mem (i+n) j := by
  rw [slice,List.drop_drop,slice]

/-- Two slices that meet are one. -/
theorem slice_append (hij : i ≤ j) (hjk : j ≤ k) (hk : k ≤ mem.length) :
    slice mem i j++slice mem j k = slice mem i k := by
  have hsplit : mem.take k = mem.take j++(mem.take k).drop j := by
    have h := List.take_append_drop j (mem.take k)
    rw [List.take_take,Nat.min_eq_left hjk] at h
    exact h.symm
  have hlen : (mem.take j).length = j := by
    rw [List.length_take]
    omega
  rw [slice,slice,slice]
  nth_rewrite 2 [hsplit]
  rw [List.drop_append_of_le_length (by omega)]

theorem slice_take (hij : i+n ≤ j) (hj : j ≤ mem.length) :
    (slice mem i j).take n = slice mem i (i+n) := by
  rw [← slice_append (Nat.le_add_right i n) hij hj]
  apply List.take_left'
  rw [slice_length (by omega)]
  omega

theorem overwrite_length (h : start+data.length ≤ mem.length) :
    (overwrite mem start data).length = mem.length := by
  simp only [overwrite,List.length_append,List.length_take,List.length_drop]
  omega

/-- What was written is read back. -/
theorem slice_overwrite (h : start ≤ mem.length) :
    slice (overwrite mem start data) start (start+data.length) = data := by
  have hlen : (mem.take start).length = start := by
    rw [List.length_take,Nat.min_eq_left h]
  have htake : (overwrite mem start data).take (start+data.length) = mem.take start++data := by
    apply List.take_left'
    rw [List.length_append,hlen]
  rw [slice,htake]
  exact List.drop_left' hlen

/-- The cells in front of a write keep their contents. -/
theorem slice_overwrite_before (hj : j ≤ start) (h : start ≤ mem.length) :
    slice (overwrite mem start data) i j = slice mem i j := by
  have hlen : (mem.take start).length = start := by
    rw [List.length_take,Nat.min_eq_left h]
  have htake : (overwrite mem start data).take j = mem.take j := by
    rw [overwrite,List.append_assoc,List.take_append_of_le_length (by omega),List.take_take,
      Nat.min_eq_left hj]
  rw [slice,htake,slice]

theorem resize_length (fill : α) : (resize mem n fill).length = n := by
  simp only [resize,List.length_append,List.length_take,List.length_replicate]
  omega

theorem slice_resize (fill : α) (hj : j ≤ mem.length) (hn : mem.length ≤ n) :
    slice (resize mem n fill) i j = slice mem i j := by
  have htake : (resize mem n fill).take j = mem.take j := by
    rw [resize,List.take_of_length_le hn,List.take_append_of_le_length hj]
  rw [slice,htake,slice]

theorem load_eq (hij : i ≤ j) (hj : j ≤ mem.length) : load mem i j = some (slice mem i j) :=
  if_pos ⟨hij,hj⟩

theorem store_eq (h : start+data.length ≤ mem.length) :
    store mem start data = some (overwrite mem start data) := if_pos h

end Slice

end SRaftMuduo
