import SRaftMuduo.Muduo.Buffer

namespace SRaftMuduo

open Slice

/-- The largest size of a `std::vector<char>`. -/
def maxSize : Nat := 2^63-1

/-- How a call ends: it returns, throws, or has no defined behaviour. -/
inductive Outcome (α : Type*)
  | returned (a : α)
  | threw
  | undefined

namespace Buffer

/-- The call comes to the `resize` of `makeSpace`, with a size that makes it throw. -/
def resizeThrows (b : Buffer) (len : Nat) : Prop :=
  b.writeableBytes < len ∧
    u64 (b.writeableBytes+b.prependableBytes) < u64 (len+kCheapPrepend) ∧
    maxSize < u64 (b.writerIndex+len)

instance (b : Buffer) (len : Nat) : Decidable (b.resizeThrows len) :=
  inferInstanceAs (Decidable (_ ∧ _ ∧ _))

/-- `ensureWriteableBytes` on a vector whose `resize` throws above `maxSize`. -/
def reserve (b : Buffer) (len : Nat) : Outcome Buffer :=
  if b.resizeThrows len then .threw
  else
    match b.ensureWriteableBytes len with
    | some c => .returned c
    | none => .undefined

/-- What a caller of `ensureWriteableBytes(len)` relies on when it returns `c`. -/
structure Reserved (b : Buffer) (len : Nat) (c : Buffer) : Prop where
  room : len ≤ c.writeableBytes
  readable : c.readable = b.readable
  writer : c.writerIndex ≤ c.buffer.length

/-- What a call may end with: a throw promises nothing, and undefined behaviour must not
come. -/
def Promised (b : Buffer) (len : Nat) : Outcome Buffer → Prop
  | .returned c => b.Reserved len c
  | .threw => True
  | .undefined => False

variable {b c : Buffer} {len : Nat} {mem : CString}

theorem copyWithin_length {first last dest : Nat}
    (h : copyWithin b.buffer first last dest = some mem) : mem.length = b.buffer.length := by
  unfold copyWithin at h
  split_ifs at h
  obtain ⟨data,-,hstore⟩ := Option.bind_eq_some_iff.mp h
  unfold store at hstore
  split_ifs at hstore with hfit
  rw [← Option.some.inj hstore,overwrite_length hfit]

/-- Without a wrap a call that does not throw makes room. -/
theorem Bounded.reserve (h : b.Bounded) (hsize : b.buffer.length ≤ maxSize)
    (hfit : b.writerIndex+len < 2^64) : b.Promised len (b.reserve len) := by
  have hprep := h.prepend
  have hreader := h.reader
  have hwriter := h.writer
  have hwb := h.writeableBytes_eq
  have hpb : b.prependableBytes = b.readerIndex := rfl
  have hmax : maxSize = 2^63-1 := rfl
  have hsum : u64 (b.writeableBytes+b.prependableBytes) =
      b.writeableBytes+b.prependableBytes := u64_of_lt (by omega)
  have hneed : u64 (len+kCheapPrepend) = len+kCheapPrepend := u64_of_lt (by omega)
  have hend : u64 (b.writerIndex+len) = b.writerIndex+len := u64_of_lt hfit
  unfold Buffer.reserve
  split_ifs with hthrow
  · trivial
  · have hroom : b.writerIndex+len+kCheapPrepend < 2^64 := by
      rw [resizeThrows,hsum,hneed,hend] at hthrow
      have hprepend : kCheapPrepend = 8 := rfl
      omega
    obtain ⟨c,hc,hb,hread,hspace⟩ := h.ensureWriteableBytes hroom
    rw [hc]
    refine ⟨?_,hread,hb.writer⟩
    rw [hb.writeableBytes_eq]
    omega

/-- When `writerIndex_ + len` wraps the call comes to `makeSpace` and does not throw. -/
theorem Bounded.wrap (h : b.Bounded) (hsize : b.buffer.length ≤ maxSize) (hlen : len < 2^64)
    (hwrap : 2^64 ≤ b.writerIndex+len) :
    b.writeableBytes < len ∧ u64 (b.writerIndex+len) < b.writerIndex ∧ ¬b.resizeThrows len := by
  have hreader := h.reader
  have hwriter := h.writer
  have hwb := h.writeableBytes_eq
  have hmax : maxSize = 2^63-1 := rfl
  have hend : u64 (b.writerIndex+len) < b.writerIndex := by
    unfold u64
    omega
  refine ⟨by omega,hend,?_⟩
  rintro ⟨-,-,hthrow⟩
  omega

/-- The sum with `kCheapPrepend` wraps as well: the bytes are shifted, which makes too little
room. -/
theorem Bounded.shifted (h : b.Bounded) (hsize : b.buffer.length ≤ maxSize)
    (hneed : 2^64 ≤ len+kCheapPrepend) (hlen : len < 2^64) (hc : b.makeSpace len = some c) :
    c.writeableBytes < len := by
  have hprep := h.prepend
  have hreader := h.reader
  have hwriter := h.writer
  have hwb := h.writeableBytes_eq
  have hrb := h.readableBytes_eq
  have hpb : b.prependableBytes = b.readerIndex := rfl
  have hmax : maxSize = 2^63-1 := rfl
  have hprepend : kCheapPrepend = 8 := rfl
  have hsum : u64 (b.writeableBytes+b.prependableBytes) =
      b.writeableBytes+b.prependableBytes := u64_of_lt (by omega)
  have hsmall : u64 (len+kCheapPrepend) < kCheapPrepend := by
    unfold u64
    omega
  rw [Buffer.makeSpace,if_neg (by omega)] at hc
  obtain ⟨mem,hcopy,rfl⟩ := Option.map_eq_some_iff.mp hc
  have hmem := copyWithin_length hcopy
  have hnew : u64 (kCheapPrepend+b.readableBytes) = kCheapPrepend+b.readableBytes :=
    u64_of_lt (by omega)
  rw [hnew,writeableBytes]
  dsimp only
  rw [u64Sub_of_le (by omega) (by omega)]
  omega

/-- Only the sum in the argument of `resize` wraps: the vector shrinks. -/
theorem Bounded.shrunk (h : b.Bounded) (hsize : b.buffer.length ≤ maxSize)
    (hwrap : 2^64 ≤ b.writerIndex+len) (hneed : len+kCheapPrepend < 2^64)
    (hend : u64 (b.writerIndex+len) < b.writerIndex) (hc : b.makeSpace len = some c) :
    c.buffer.length < c.writerIndex := by
  have hreader := h.reader
  have hwriter := h.writer
  have hwb := h.writeableBytes_eq
  have hpb : b.prependableBytes = b.readerIndex := rfl
  have hmax : maxSize = 2^63-1 := rfl
  have hsum : u64 (b.writeableBytes+b.prependableBytes) =
      b.writeableBytes+b.prependableBytes := u64_of_lt (by omega)
  rw [Buffer.makeSpace,hsum,u64_of_lt hneed,if_pos (by omega)] at hc
  obtain rfl := Option.some.inj hc
  show (resize b.buffer (u64 (b.writerIndex+len)) nul).length < b.writerIndex
  rw [resize_length]
  exact hend

/-- Space is reserved as promised exactly for the lengths with which `writerIndex_ + len` does
not wrap. -/
theorem reserve_iff (h : b.Bounded) (hsize : b.buffer.length ≤ maxSize) (hlen : len < 2^64) :
    b.Promised len (b.reserve len) ↔ b.writerIndex+len < 2^64 := by
  constructor
  · intro hkeeps
    by_contra hfit
    have hwrap : 2^64 ≤ b.writerIndex+len := by omega
    obtain ⟨hroom,hend,hthrow⟩ := h.wrap hsize hlen hwrap
    rw [Buffer.reserve,if_neg hthrow,Buffer.ensureWriteableBytes,if_pos hroom] at hkeeps
    cases hc : b.makeSpace len with
    | none =>
      rw [hc] at hkeeps
      exact hkeeps
    | some c =>
      rw [hc] at hkeeps
      obtain ⟨hspace,-,hwriter⟩ : b.Reserved len c := hkeeps
      by_cases hneed : len+kCheapPrepend < 2^64
      · have := h.shrunk hsize hwrap hneed hend hc
        omega
      · have := h.shifted hsize (by omega) hlen hc
        omega
  · exact h.reserve hsize

theorem new_fits : (new kInitialSize).Bounded ∧ (new kInitialSize).buffer.length ≤ maxSize := by
  refine ⟨.new (by decide),?_⟩
  rw [new,List.length_replicate,u64_of_lt (by decide)]
  decide

theorem reserve_iff_page :
    (new kInitialSize).Promised 4096 ((new kInitialSize).reserve 4096) :=
  (reserve_iff new_fits.1 new_fits.2 (by decide)).mpr (by decide)

/-- Eight bytes less than `2^64` are reserved in a new buffer: the call returns and the
`kInitialSize` bytes there were are all there is. -/
theorem reserve_wraps : (new kInitialSize).Bounded ∧ (new kInitialSize).buffer.length ≤ maxSize ∧
    ∃ c, (new kInitialSize).reserve (2^64-8) = .returned c ∧ c.writeableBytes = kInitialSize ∧
      ¬(new kInitialSize).Reserved (2^64-8) c := by
  have hroom : ((new kInitialSize).ensureWriteableBytes (2^64-8)).any
      (fun c => c.writeableBytes = kInitialSize) = true := by decide +kernel
  obtain ⟨c,hc,hroom⟩ := (Option.any_eq_true _ _).mp hroom
  have hbytes : c.writeableBytes = kInitialSize := of_decide_eq_true hroom
  refine ⟨new_fits.1,new_fits.2,c,?_,hbytes,?_⟩
  · rw [reserve,if_neg (by decide +kernel),hc]
  · intro h
    have := h.room
    rw [hbytes] at this
    exact absurd this (by decide)

end Buffer

end SRaftMuduo
