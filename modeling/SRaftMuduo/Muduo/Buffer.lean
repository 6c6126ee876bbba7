import SRaftMuduo.Framework.Machine
import SRaftMuduo.Framework.Slice
import SRaftMuduo.Math.Words

namespace SRaftMuduo

open Slice

def kCheapPrepend : Nat := 8
def kInitialSize : Nat := 1024

/-- The value of the cells that `resize` adds. -/
def nul : Char := '\x00'

structure Buffer where
  buffer : CString
  readerIndex : Nat
  writerIndex : Nat

namespace Buffer

/-- The constructor; the sum is one of `size_t` values. -/
def new (initialSize : Nat) : Buffer :=
  ⟨List.replicate (u64 (kCheapPrepend+initialSize)) nul,kCheapPrepend,kCheapPrepend⟩

def readableBytes (b : Buffer) : Nat := u64Sub b.writerIndex b.readerIndex

def writeableBytes (b : Buffer) : Nat := u64Sub b.buffer.length b.writerIndex

def prependableBytes (b : Buffer) : Nat := b.readerIndex

def retrieveAll (b : Buffer) : Buffer :=
  {b with readerIndex := kCheapPrepend, writerIndex := kCheapPrepend}

def retrieve (b : Buffer) (len : Nat) : Buffer :=
  if len < b.readableBytes then {b with readerIndex := u64 (b.readerIndex+len)}
  else b.retrieveAll

def retrieveAsString (b : Buffer) (len : Nat) : Option (CString × Buffer) :=
  (load b.buffer b.readerIndex (b.readerIndex+len)).map fun result => (result,b.retrieve len)

def retrieveAllAsString (b : Buffer) : Option (CString × Buffer) :=
  b.retrieveAsString b.readableBytes

/-- `std::copy` inside one vector: not defined when it leaves the vector or when the
destination starts inside the source. -/
def copyWithin (mem : CString) (first last dest : Nat) : Option CString :=
  if first ≤ dest ∧ dest < last then none
  else (load mem first last).bind (store mem dest)

def makeSpace (b : Buffer) (len : Nat) : Option Buffer :=
  if u64 (b.writeableBytes+b.prependableBytes) < u64 (len+kCheapPrepend) then
    some {b with buffer := resize b.buffer (u64 (b.writerIndex+len)) nul}
  else
    (copyWithin b.buffer b.readerIndex b.writerIndex kCheapPrepend).map fun mem =>
      ⟨mem,kCheapPrepend,u64 (kCheapPrepend+b.readableBytes)⟩

def ensureWriteableBytes (b : Buffer) (len : Nat) : Option Buffer :=
  if b.writeableBytes < len then b.makeSpace len else some b

def append (b : Buffer) (data : CString) : Option Buffer :=
  (b.ensureWriteableBytes data.length).bind fun b =>
    (store b.buffer b.writerIndex data).map fun mem =>
      {b with buffer := mem, writerIndex := u64 (b.writerIndex+data.length)}

/-- `sizeof extrabuf`. -/
def extrabufSize : Nat := 65536

/-- The bytes that the vectors given to `readv` can take. -/
def offered (b : Buffer) : Nat :=
  if b.writeableBytes < extrabufSize then b.writeableBytes+extrabufSize else b.writeableBytes

/-- `readFd` when `readv` delivers `data`: the first vector is filled first, the rest lies
in `extrabuf`. -/
def readFd (b : Buffer) (data : CString) : Option Buffer :=
  let writable := b.writeableBytes
  (store b.buffer b.writerIndex (data.take writable)).bind fun mem =>
    if data.length ≤ writable then
      some {b with buffer := mem, writerIndex := u64 (b.writerIndex+data.length)}
    else
      append {b with buffer := mem, writerIndex := mem.length} (data.drop writable)

/-- The bytes waiting to be taken out. -/
def readable (b : Buffer) : CString := slice b.buffer b.readerIndex b.writerIndex

/-- The order of the three indices, in a vector whose size is a `size_t`. -/
structure Bounded (b : Buffer) : Prop where
  prepend : kCheapPrepend ≤ b.readerIndex
  reader : b.readerIndex ≤ b.writerIndex
  writer : b.writerIndex ≤ b.buffer.length
  size : b.buffer.length < 2^64

theorem Bounded.new {initialSize : Nat} (h : kCheapPrepend+initialSize < 2^64) :
    Bounded (new initialSize) := by
  have hlen : (Buffer.new initialSize).buffer.length = kCheapPrepend+initialSize := by
    rw [Buffer.new,List.length_replicate,u64_of_lt h]
  constructor
  · exact Nat.le_refl _
  · exact Nat.le_refl _
  · rw [hlen]
    exact Nat.le_add_right _ _
  · rw [hlen]
    exact h

variable {b c : Buffer} {len : Nat} {data : CString}

theorem Bounded.readableBytes_eq (h : b.Bounded) :
    b.readableBytes = b.writerIndex-b.readerIndex :=
  u64Sub_of_le (Nat.lt_of_le_of_lt h.writer h.size) h.reader

theorem Bounded.writeableBytes_eq (h : b.Bounded) :
    b.writeableBytes = b.buffer.length-b.writerIndex := u64Sub_of_le h.size h.writer

theorem Bounded.readable_length (h : b.Bounded) : b.readable.length = b.readableBytes := by
  rw [readable,slice_length h.writer,h.readableBytes_eq]

theorem Bounded.retrieveAll (h : b.Bounded) :
    b.retrieveAll.Bounded ∧ b.retrieveAll.readable = [] := by
  have hprep := h.prepend
  have hreader := h.reader
  refine ⟨⟨Nat.le_refl _,Nat.le_refl _,?_,h.size⟩,slice_empty (Nat.le_refl _)⟩
  exact Nat.le_trans (Nat.le_trans hprep hreader) h.writer

theorem Bounded.retrieve (h : b.Bounded) (len : Nat) :
    (b.retrieve len).Bounded ∧ (b.retrieve len).readable = b.readable.drop len := by
  unfold Buffer.retrieve
  split_ifs with hlt
  · have hsum : b.readerIndex+len < b.writerIndex := by
      rw [h.readableBytes_eq] at hlt
      omega
    have hu : u64 (b.readerIndex+len) = b.readerIndex+len :=
      u64_of_lt (Nat.lt_trans hsum (Nat.lt_of_le_of_lt h.writer h.size))
    rw [hu]
    have hprep := h.prepend
    refine ⟨⟨?_,?_,h.writer,h.size⟩,?_⟩
    · show kCheapPrepend ≤ b.readerIndex+len
      omega
    · show b.readerIndex+len ≤ b.writerIndex
      omega
    · exact (slice_drop len).symm
  · have hall : b.readable.drop len = [] := by
      apply List.drop_eq_nil_of_le
      rw [h.readable_length]
      omega
    rw [hall]
    exact h.retrieveAll

theorem Bounded.retrieveAsString (h : b.Bounded) (hlen : len ≤ b.readableBytes) :
    b.retrieveAsString len = some (b.readable.take len,b.retrieve len) := by
  rw [h.readableBytes_eq] at hlen
  have hreader := h.reader
  have hend : b.readerIndex+len ≤ b.writerIndex := by omega
  rw [Buffer.retrieveAsString,load_eq (Nat.le_add_right _ _) (Nat.le_trans hend h.writer),
    Buffer.readable,slice_take hend h.writer]
  rfl

/-- The left shift moves the readable bytes to the front of the vector. -/
theorem Bounded.shift (h : b.Bounded) (hlen : b.writeableBytes < len)
    (hroom : len+kCheapPrepend ≤ b.writeableBytes+b.prependableBytes) :
    ∃ mem, copyWithin b.buffer b.readerIndex b.writerIndex kCheapPrepend = some mem ∧
      mem.length = b.buffer.length ∧
      slice mem kCheapPrepend (kCheapPrepend+b.readableBytes) = b.readable := by
  have hlt : kCheapPrepend < b.readerIndex := by
    have hprep : b.prependableBytes = b.readerIndex := rfl
    omega
  have hreader := h.reader
  have hwriter := h.writer
  have hsize := h.readable_length
  have hrb := h.readableBytes_eq
  have hfits : kCheapPrepend+b.readable.length ≤ b.buffer.length := by omega
  have hcopy : copyWithin b.buffer b.readerIndex b.writerIndex kCheapPrepend =
      some (overwrite b.buffer kCheapPrepend b.readable) := by
    rw [copyWithin,if_neg (by omega),load_eq h.reader h.writer]
    exact store_eq hfits
  refine ⟨_,hcopy,overwrite_length hfits,?_⟩
  rw [← hsize]
  exact slice_overwrite (by omega)

/-- After `makeSpace` the same bytes wait and `len` more fit. -/
theorem Bounded.makeSpace (h : b.Bounded) (hlen : b.writeableBytes < len)
    (hfit : b.writerIndex+len+kCheapPrepend < 2^64) :
    ∃ c, b.makeSpace len = some c ∧ c.Bounded ∧ c.readable = b.readable ∧
      c.writerIndex+len ≤ c.buffer.length := by
  have hprep := h.prepend
  have hreader := h.reader
  have hwriter := h.writer
  have hsize := h.size
  have hrb := h.readableBytes_eq
  have hwb := h.writeableBytes_eq
  have hpb : b.prependableBytes = b.readerIndex := rfl
  have hsum : u64 (b.writeableBytes+b.prependableBytes) =
      b.writeableBytes+b.prependableBytes := u64_of_lt (by omega)
  have hneed : u64 (len+kCheapPrepend) = len+kCheapPrepend := u64_of_lt (by omega)
  rw [Buffer.makeSpace,hsum,hneed]
  by_cases hgrow : b.writeableBytes+b.prependableBytes < len+kCheapPrepend
  · -- the vector grows to the end of the bytes to come
    have hnew : u64 (b.writerIndex+len) = b.writerIndex+len := u64_of_lt (by omega)
    have hlength : (resize b.buffer (b.writerIndex+len) nul).length = b.writerIndex+len :=
      resize_length nul
    rw [if_pos hgrow,hnew]
    refine ⟨_,rfl,⟨hprep,hreader,?_,?_⟩,?_,?_⟩
    · show b.writerIndex ≤ (resize b.buffer (b.writerIndex+len) nul).length
      omega
    · show (resize b.buffer (b.writerIndex+len) nul).length < 2^64
      omega
    · exact slice_resize nul hwriter (by omega)
    · exact Nat.le_of_eq hlength.symm
  · obtain ⟨mem,hcopy,hmem,hslice⟩ := h.shift hlen (by omega)
    have hnew : u64 (kCheapPrepend+b.readableBytes) = kCheapPrepend+b.readableBytes :=
      u64_of_lt (by omega)
    rw [if_neg hgrow,hcopy,hnew]
    refine ⟨_,rfl,⟨Nat.le_refl _,Nat.le_add_right _ _,?_,?_⟩,hslice,?_⟩
    · show kCheapPrepend+b.readableBytes ≤ mem.length
      omega
    · show mem.length < 2^64
      omega
    · show kCheapPrepend+b.readableBytes+len ≤ mem.length
      omega

theorem Bounded.ensureWriteableBytes (h : b.Bounded)
    (hfit : b.writerIndex+len+kCheapPrepend < 2^64) :
    ∃ c, b.ensureWriteableBytes len = some c ∧ c.Bounded ∧ c.readable = b.readable ∧
      c.writerIndex+len ≤ c.buffer.length := by
  unfold Buffer.ensureWriteableBytes
  split_ifs with hlt
  · exact h.makeSpace hlt hfit
  · have hwb := h.writeableBytes_eq
    have hwriter := h.writer
    exact ⟨b,rfl,h,rfl,by omega⟩

/-- A write at `writerIndex_` that stays inside the vector adds its bytes at the end. -/
theorem Bounded.written (h : b.Bounded) (hroom : b.writerIndex+data.length ≤ b.buffer.length) :
    let mem := overwrite b.buffer b.writerIndex data
    Bounded ⟨mem,b.readerIndex,b.writerIndex+data.length⟩ ∧
      slice mem b.readerIndex (b.writerIndex+data.length) = b.readable++data := by
  intro mem
  have hlen : mem.length = b.buffer.length := overwrite_length hroom
  have hreader := h.reader
  have hsize := h.size
  refine ⟨⟨h.prepend,?_,?_,?_⟩,?_⟩
  · show b.readerIndex ≤ b.writerIndex+data.length
    omega
  · show b.writerIndex+data.length ≤ mem.length
    omega
  · show mem.length < 2^64
    omega
  · rw [← slice_append hreader (Nat.le_add_right _ _) (by omega)]
    rw [slice_overwrite_before (Nat.le_refl _) h.writer,slice_overwrite h.writer]
    rfl

theorem Bounded.append (h : b.Bounded) (hfit : b.writerIndex+data.length+kCheapPrepend < 2^64) :
    ∃ c, b.append data = some c ∧ c.Bounded ∧ c.readable = b.readable++data := by
  obtain ⟨c,hc,hb,hread,hroom⟩ := h.ensureWriteableBytes hfit
  have hsize := hb.size
  have hu : u64 (c.writerIndex+data.length) = c.writerIndex+data.length := u64_of_lt (by omega)
  obtain ⟨hbound,hslice⟩ := hb.written hroom
  refine ⟨_,?_,hbound,?_⟩
  · rw [Buffer.append,hc,Option.bind_some,store_eq hroom,Option.map_some,hu]
  · rw [← hread]
    exact hslice

theorem Bounded.readFd (h : b.Bounded) (hfit : b.writerIndex+data.length+kCheapPrepend < 2^64) :
    ∃ c, b.readFd data = some c ∧ c.Bounded ∧ c.readable = b.readable++data := by
  have hwb := h.writeableBytes_eq
  have hwriter := h.writer
  have hsize := h.size
  have htake : (data.take b.writeableBytes).length = min b.writeableBytes data.length :=
    List.length_take
  have hroom : b.writerIndex+(data.take b.writeableBytes).length ≤ b.buffer.length := by omega
  obtain ⟨hbound,hslice⟩ := h.written hroom
  by_cases hle : data.length ≤ b.writeableBytes
  · -- everything went to the first vector
    rw [List.take_of_length_le hle] at hroom hbound hslice
    have hu : u64 (b.writerIndex+data.length) = b.writerIndex+data.length := u64_of_lt (by omega)
    refine ⟨_,?_,hbound,hslice⟩
    rw [Buffer.readFd,List.take_of_length_le hle,store_eq hroom,Option.bind_some,if_pos hle,hu]
  · -- the first vector is full and `extrabuf` holds the rest
    have hfull : b.writerIndex+(data.take b.writeableBytes).length = b.buffer.length := by omega
    have hlen := overwrite_length hroom
    rw [hfull,← hlen] at hbound hslice
    have hdrop : (data.drop b.writeableBytes).length = data.length-b.writeableBytes :=
      List.length_drop
    have hrest : (overwrite b.buffer b.writerIndex (data.take b.writeableBytes)).length+
        (data.drop b.writeableBytes).length+kCheapPrepend < 2^64 := by omega
    obtain ⟨c,hc,hcb,hread⟩ := hbound.append hrest
    refine ⟨c,?_,hcb,?_⟩
    · rw [Buffer.readFd,store_eq hroom,Option.bind_some,if_neg hle]
      exact hc
    · rw [hread]
      show slice (overwrite b.buffer b.writerIndex (data.take b.writeableBytes)) b.readerIndex
        (overwrite b.buffer b.writerIndex (data.take b.writeableBytes)).length++_ = _
      rw [hslice,List.append_assoc,List.take_append_drop]

end Buffer

end SRaftMuduo
