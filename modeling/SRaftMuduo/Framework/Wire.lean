import Mathlib.Algebra.Ring.Nat
import Mathlib.Data.List.Basic

namespace SRaftMuduo

namespace Wire

/-- The groups of seven bits of a number, lowest first; all but the last carry the eighth bit. -/
def groups : Nat → Nat → List Char
  | 0, n => [Char.ofNat (n%128)]
  | g+1, n =>
    if n < 128 then [Char.ofNat n] else Char.ofNat (128+n%128)::groups g (n/128)

def writeVarint (n : Nat) : List Char := groups 9 n

/-- At most so many groups, and the bytes after them; `none` when the bytes end before. -/
def readGroups : Nat → List Char → Option (Nat × List Char)
  | 0, _ => none
  | _+1, [] => none
  | g+1, c::cs =>
    if c.toNat < 128 then some (c.toNat,cs)
    else (readGroups g cs).map fun r => (c.toNat-128+128*r.1,r.2)

def readVarint (cs : List Char) : Option (Nat × List Char) :=
  (readGroups 10 cs).map fun r => (r.1%2^64,r.2)

/-- A field of a message: a number with a varint, or with a string and its length. A char is
a byte. -/
inductive Field
  | varint (num value : Nat)
  | bytes (num : Nat) (data : List Char)
  deriving DecidableEq

/-- What is found of a field: all of it, or the bytes there are of its string. -/
inductive Token
  | whole (f : Field)
  | cut (num : Nat) (there : List Char)
  deriving DecidableEq

namespace Field

def tag : Field → Nat
  | .varint num _ => 8*num
  | .bytes num _ => 8*num+2

def num : Field → Nat
  | .varint num _ => num
  | .bytes num _ => num

def body : Field → List Char
  | .varint _ value => writeVarint value
  | .bytes _ data => writeVarint data.length++data

def encode (f : Field) : List Char := Char.ofNat f.tag::f.body

def size (f : Field) : Nat := 1+f.body.length

/-- What is there of the string when `k` bytes follow the tag. -/
def there (k : Nat) : Field → List Char
  | .varint _ _ => []
  | .bytes _ data => data.take (k-(writeVarint data.length).length)

/-- The tag is one byte, and the value or the length fits in 64 bits. -/
def Small : Field → Prop
  | .varint num value => num < 16 ∧ value < 2^64
  | .bytes num data => num < 16 ∧ data.length < 2^64

end Field

def encode (fs : List Field) : List Char := fs.flatMap Field.encode

/-- Reads what follows a tag. A wire type other than these two ends the message. -/
def readBody (tag : Nat) (cs : List Char) : Token × List Char :=
  if tag%8 = 0 then
    match readVarint cs with
    | some (value,rest) => (.whole (.varint (tag/8) value),rest)
    | none => (.cut (tag/8) [],[])
  else if tag%8 = 2 then
    match readVarint cs with
    | some (len,rest) =>
      if len ≤ rest.length then (.whole (.bytes (tag/8) (rest.take len)),rest.drop len)
      else (.cut (tag/8) rest,[])
    | none => (.cut (tag/8) [],[])
  else (.cut (tag/8) [],[])

def lexN : Nat → List Char → List Token
  | 0, _ => []
  | _+1, [] => []
  | n+1, c::cs => (readBody c.toNat cs).1::lexN n (readBody c.toNat cs).2

/-- The fields of a message; each takes at least the byte of its tag. -/
def lex (cs : List Char) : List Token := lexN cs.length cs

/-- The fields that lie in the first `k` bytes, and the one that is cut there. -/
def cutTokens : List Field → Nat → List Token
  | [], _ => []
  | f::fs, k =>
    if f.size ≤ k then .whole f::cutTokens fs (k-f.size)
    else if k = 0 then [] else [.cut f.num (f.there (k-1))]

variable {n g k : Nat} {f : Field} {fs : List Field}

theorem toNat_ofNat (h : n < 256) : (Char.ofNat n).toNat = n := by
  have hv : n.isValidChar := .inl (by omega)
  rw [Char.ofNat,dif_pos hv]
  rfl

theorem readGroups_groups (h : n < 128^(g+1)) (rest : List Char) :
    readGroups (g+1) (groups g n++rest) = some (n,rest) := by
  induction g generalizing n with
  | zero =>
    have hn : n%128 = n := Nat.mod_eq_of_lt (by omega)
    rw [groups,hn,List.singleton_append,readGroups,toNat_ofNat (by omega),if_pos (by omega)]
  | succ g ih =>
    rw [groups]
    split_ifs with hn
    · rw [List.singleton_append,readGroups,toNat_ofNat (by omega),if_pos hn]
    · have hdiv : n/128 < 128^(g+1) := by
        rw [Nat.div_lt_iff_lt_mul (by decide),← Nat.pow_succ]
        exact h
      rw [List.cons_append,readGroups,toNat_ofNat (by omega),if_neg (by omega),ih hdiv,
        Option.map_some]
      have hsplit : 128+n%128-128+128*(n/128) = n := by omega
      rw [hsplit]

/-- Bytes that end inside a number do not give one. -/
theorem readGroups_take (h : k < (groups g n).length) :
    readGroups (g+1) ((groups g n).take k) = none := by
  induction g generalizing n k with
  | zero =>
    have hk : k = 0 := by
      rw [groups,List.length_singleton] at h
      omega
    rw [hk,List.take_zero,readGroups]
  | succ g ih =>
    cases k with
    | zero => rw [List.take_zero,readGroups]
    | succ k =>
      rw [groups] at h ⊢
      split_ifs with hn
      · rw [if_pos hn,List.length_singleton] at h
        omega
      · rw [if_neg hn,List.length_cons] at h
        rw [List.take_succ_cons,readGroups,toNat_ofNat (by omega),if_neg (by omega),
          ih (by omega),Option.map_none]

theorem readVarint_writeVarint (h : n < 2^64) (rest : List Char) :
    readVarint (writeVarint n++rest) = some (n,rest) := by
  rw [readVarint,writeVarint,readGroups_groups (by omega),Option.map_some,Nat.mod_eq_of_lt h]

theorem readVarint_take (h : k < (writeVarint n).length) :
    readVarint ((writeVarint n).take k) = none := by
  rw [readVarint,writeVarint,readGroups_take h,Option.map_none]

theorem tag_lt (h : f.Small) : f.tag < 256 := by
  cases f with
  | varint num value =>
    have hnum : num < 16 := h.1
    show 8*num < 256
    omega
  | bytes num data =>
    have hnum : num < 16 := h.1
    show 8*num+2 < 256
    omega

theorem readBody_whole (h : f.Small) (rest : List Char) :
    readBody f.tag (f.body++rest) = (.whole f,rest) := by
  cases f with
  | varint num value =>
    rw [readBody,Field.tag,if_pos (by omega),Field.body,readVarint_writeVarint h.2]
    have hnum : 8*num/8 = num := by omega
    rw [hnum]
  | bytes num data =>
    rw [readBody,Field.tag,if_neg (by omega),if_pos (by omega),Field.body,List.append_assoc,
      readVarint_writeVarint h.2]
    dsimp only
    have hnum : (8*num+2)/8 = num := by omega
    rw [if_pos (by simp),hnum,List.take_left,List.drop_left]

theorem readBody_cut (h : f.Small) (hk : k < f.body.length) :
    readBody f.tag (f.body.take k) = (.cut f.num (f.there k),[]) := by
  cases f with
  | varint num value =>
    rw [readBody,Field.tag,if_pos (by omega),Field.body,readVarint_take hk]
    have hnum : 8*num/8 = num := by omega
    rw [hnum]
    rfl
  | bytes num data =>
    have hnum : (8*num+2)/8 = num := by omega
    rw [readBody,Field.tag,if_neg (by omega),if_pos (by omega),Field.body,hnum,Field.there]
    by_cases hlen : k < (writeVarint data.length).length
    · rw [List.take_append_of_le_length (by omega),readVarint_take hlen,
        Nat.sub_eq_zero_of_le (by omega),List.take_zero]
      rfl
    · have hdata : k-(writeVarint data.length).length < data.length := by
        rw [Field.body,List.length_append] at hk
        omega
      rw [List.take_append,List.take_of_length_le (by omega),readVarint_writeVarint h.2]
      dsimp only
      rw [if_neg (by rw [List.length_take]; omega)]
      rfl

theorem encode_cons (f : Field) (fs : List Field) :
    encode (f::fs) = Char.ofNat f.tag::(f.body++encode fs) := rfl

theorem encode_append (fs gs : List Field) : encode (fs++gs) = encode fs++encode gs := by
  rw [encode,List.flatMap_append]
  rfl

theorem lexN_take (h : ∀ f ∈ fs, f.Small) (hn : ((encode fs).take k).length ≤ n) :
    lexN n ((encode fs).take k) = cutTokens fs k := by
  induction fs generalizing n k with
  | nil =>
    rw [encode,List.flatMap_nil,List.take_nil]
    cases n <;> rfl
  | cons f fs ih =>
    have hf : f.Small := h f List.mem_cons_self
    rw [cutTokens,Field.size]
    cases k with
    | zero =>
      rw [if_neg (by omega),if_pos rfl,List.take_zero]
      cases n <;> rfl
    | succ k =>
      rw [encode_cons,List.take_succ_cons,List.length_cons] at hn
      obtain ⟨n,rfl⟩ : ∃ m, n = m+1 := ⟨n-1,by omega⟩
      rw [encode_cons,List.take_succ_cons,lexN,toNat_ofNat (tag_lt hf)]
      by_cases hk : f.body.length ≤ k
      · rw [List.take_append,List.take_of_length_le hk,List.length_append] at hn
        rw [if_pos (by omega),List.take_append,List.take_of_length_le hk,readBody_whole hf]
        dsimp only
        rw [ih (fun f hm => h f (List.mem_cons_of_mem _ hm)) (by omega)]
        congr 2
        omega
      · rw [if_neg (by omega),if_neg (by omega),List.take_append_of_le_length (by omega),
          readBody_cut hf (by omega)]
        dsimp only
        cases n <;> rfl

/-- A message cut after `k` bytes reads as its whole fields up to there and the cut one. -/
theorem lex_take (h : ∀ f ∈ fs, f.Small) (k : Nat) :
    lex ((encode fs).take k) = cutTokens fs k :=
  lexN_take h (Nat.le_refl _)

/-- The bytes of an optional field. -/
def optionalSize (o : Option Field) : Nat := o.elim 0 Field.size

/-- Reading on past a field that leaves no trace when it is cut. -/
theorem foldl_field {σ : Type*} {set : σ → Token → σ}
    (hcut : ∀ m cs, set m (.cut f.num cs) = m) (m : σ) :
    (cutTokens (f::fs) k).foldl set m =
      if f.size ≤ k then (cutTokens fs (k-f.size)).foldl set (set m (.whole f)) else m := by
  rw [cutTokens]
  split_ifs
  · rfl
  · rfl
  · exact hcut m _

theorem foldl_optional {σ : Type*} {set : σ → Token → σ}
    (hcut : ∀ m num cs, set m (.cut num cs) = m) (o : Option Field) (m : σ) :
    (cutTokens (o.toList++fs) k).foldl set m =
      if optionalSize o ≤ k then
        (cutTokens fs (k-optionalSize o)).foldl set (o.elim m fun f => set m (.whole f))
      else m := by
  cases o with
  | none => rfl
  | some f => exact foldl_field (fun m cs => hcut m f.num cs) m

theorem encode_optional_length (o : Option Field) (fs : List Field) :
    (encode (o.toList++fs)).length = optionalSize o+(encode fs).length := by
  cases o with
  | none => rw [optionalSize,Option.elim_none,Nat.zero_add,Option.toList_none,List.nil_append]
  | some f =>
    show (encode (f::fs)).length = f.size+(encode fs).length
    rw [encode_cons,List.length_cons,List.length_append,Field.size]
    omega

end Wire

end SRaftMuduo
