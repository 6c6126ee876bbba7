import SRaftMuduo.Muduo.Buffer
import SRaftMuduo.Framework.Fifo

namespace SRaftMuduo

/-- A call of one of the operations; `readFd` comes with what `readv` delivered. -/
inductive BufferOp
  | append (data : CString)
  | readFd (data : CString)
  | readError
  | retrieve (len : Nat)
  | retrieveAll
  | retrieveAsString (len : Nat)
  | retrieveAllAsString
  | ensureWriteableBytes (len : Nat)

/-- A buffer with the bytes that went in and the bytes that were taken out so far. -/
structure Ledger where
  buffer : Buffer
  entered : CString
  left : CString

namespace Ledger

def new (initialSize : Nat) : Ledger := ⟨.new initialSize,[],[]⟩

/-- A call that puts `data` in. -/
def put (s : Ledger) (b : Option Buffer) (data : CString) : Option Ledger :=
  b.map fun b => ⟨b,s.entered++data,s.left⟩

/-- A call that hands out a string. -/
def hand (s : Ledger) (r : Option (CString × Buffer)) : Option Ledger :=
  r.map fun r => ⟨r.2,s.entered,s.left++r.1⟩

def step (s : Ledger) : BufferOp → Option Ledger
  | .append data => s.put (s.buffer.append data) data
  | .readFd data => s.put (s.buffer.readFd data) data
  | .readError => some s
  | .retrieve len => some ⟨s.buffer.retrieve len,s.entered,s.left++s.buffer.readable.take len⟩
  | .retrieveAll => some ⟨s.buffer.retrieveAll,s.entered,s.left++s.buffer.readable⟩
  | .retrieveAsString len => s.hand (s.buffer.retrieveAsString len)
  | .retrieveAllAsString => s.hand s.buffer.retrieveAllAsString
  | .ensureWriteableBytes len => s.put (s.buffer.ensureWriteableBytes len) []

/-- What a caller keeps: the vectors can take what `readv` delivers, no more is asked for
than there is, and the sizes stay below `2^64`. -/
def fits (s : Ledger) : BufferOp → Prop
  | .append data => s.buffer.writerIndex+data.length+kCheapPrepend < 2^64
  | .readFd data => data.length ≤ s.buffer.offered ∧
      s.buffer.writerIndex+data.length+kCheapPrepend < 2^64
  | .retrieveAsString len => len ≤ s.buffer.readableBytes
  | .ensureWriteableBytes len => s.buffer.writerIndex+len+kCheapPrepend < 2^64
  | _ => True

instance (s : Ledger) : (op : BufferOp) → Decidable (fits s op)
  | .append _ | .ensureWriteableBytes _ => inferInstanceAs (Decidable (_ < _))
  | .readFd _ => inferInstanceAs (Decidable (_ ∧ _))
  | .retrieveAsString _ => inferInstanceAs (Decidable (_ ≤ _))
  | .readError | .retrieve _ | .retrieveAll | .retrieveAllAsString => .isTrue trivial

/-- A buffer of the given initial size and the calls made on it. -/
def machine (initialSize : Nat) : Machine Ledger BufferOp :=
  ⟨fun s => s = .new initialSize,step⟩

/-- The buffer holds what waits in the queue `q`. -/
structure Holds (s : Ledger) (q : Fifo Char) : Prop where
  bounded : s.buffer.Bounded
  waiting : s.buffer.readable = q.waiting
  entered : s.entered = q.entered
  left : s.left = q.left

/-- The queue after a call. -/
def after (s : Ledger) (q : Fifo Char) : BufferOp → Fifo Char
  | .append data | .readFd data => q.push data
  | .readError => q
  | .retrieve len | .retrieveAsString len => q.pop len
  | .retrieveAll | .retrieveAllAsString => q.pop s.buffer.readableBytes
  | .ensureWriteableBytes _ => q.push []

variable {s t : Ledger} {q : Fifo Char} {op : BufferOp}

theorem Holds.new {initialSize : Nat} (h : kCheapPrepend+initialSize < 2^64) :
    Holds (new initialSize) (.empty Char) :=
  ⟨.new h,Slice.slice_empty (Nat.le_refl _),rfl,rfl⟩

theorem Holds.put (h : Holds s q) {b : Option Buffer} {data : CString}
    (hb : ∃ c, b = some c ∧ c.Bounded ∧ c.readable = s.buffer.readable++data) :
    ∃ t, s.put b data = some t ∧ Holds t (q.push data) := by
  obtain ⟨c,rfl,hc,hread⟩ := hb
  refine ⟨_,rfl,hc,?_,?_,h.left⟩
  · rw [hread,h.waiting]
    rfl
  · show s.entered++data = q.entered++data
    rw [h.entered]

theorem Holds.pop (h : Holds s q) {b : Buffer} (len : Nat)
    (hb : b.Bounded ∧ b.readable = s.buffer.readable.drop len) :
    Holds ⟨b,s.entered,s.left++s.buffer.readable.take len⟩ (q.pop len) := by
  obtain ⟨hbound,hread⟩ := hb
  refine ⟨hbound,?_,h.entered,?_⟩
  · rw [hread,h.waiting]
    rfl
  · show s.left++s.buffer.readable.take len = q.left++q.waiting.take len
    rw [h.left,h.waiting]

/-- A call the caller may make is answered, and as the queue answers it. -/
theorem Holds.step (h : Holds s q) (hf : fits s op) :
    ∃ t, s.step op = some t ∧ Holds t (s.after q op) := by
  have hb := h.bounded
  have hall : s.buffer.readable.drop s.buffer.readableBytes = [] :=
    List.drop_eq_nil_of_le (Nat.le_of_eq hb.readable_length)
  have hsame : s.buffer.readable.take s.buffer.readableBytes = s.buffer.readable :=
    List.take_of_length_le (Nat.le_of_eq hb.readable_length)
  cases op with
  | append data => exact h.put (hb.append hf)
  | readFd data => exact h.put (hb.readFd hf.2)
  | readError => exact ⟨s,rfl,h⟩
  | retrieve len => exact ⟨_,rfl,h.pop _ (hb.retrieve len)⟩
  | retrieveAll =>
    refine ⟨_,rfl,?_⟩
    have hpop := h.pop s.buffer.readableBytes ⟨hb.retrieveAll.1,by
      rw [hall,hb.retrieveAll.2]⟩
    rwa [hsame] at hpop
  | retrieveAsString len =>
    refine ⟨_,?_,h.pop _ (hb.retrieve len)⟩
    rw [Ledger.step,hb.retrieveAsString hf]
    rfl
  | retrieveAllAsString =>
    refine ⟨_,?_,h.pop _ (hb.retrieve s.buffer.readableBytes)⟩
    rw [Ledger.step,Buffer.retrieveAllAsString,hb.retrieveAsString (Nat.le_refl _)]
    rfl
  | ensureWriteableBytes len =>
    obtain ⟨c,hc,hcb,hread,-⟩ := hb.ensureWriteableBytes hf
    exact h.put ⟨c,hc,hcb,by rw [hread,List.append_nil]⟩

theorem Holds.path {initialSize : Nat} (h : kCheapPrepend+initialSize < 2^64)
    (hp : (machine initialSize).Path fits (.new initialSize) s) : ∃ q, Holds s q := by
  refine hp.invariant (I := fun s => ∃ q, Holds s q) ?_ ⟨_,.new h⟩
  rintro s op t ⟨q,hq⟩ hf ht
  obtain ⟨t',ht',hq'⟩ := hq.step hf
  have he : t' = t := Option.some.inj (ht'.symm.trans ht)
  exact ⟨_,he ▸ hq'⟩

end Ledger

/-- Over every run of calls the indices stay in order, no copy leaves the vector, and the
readable bytes are those that entered and were not taken out, in order. -/
theorem buffer_fifo {initialSize : Nat} {s : Ledger} (h : kCheapPrepend+initialSize < 2^64)
    (hp : (Ledger.machine initialSize).Path Ledger.fits (.new initialSize) s) :
    kCheapPrepend ≤ s.buffer.readerIndex ∧ s.buffer.readerIndex ≤ s.buffer.writerIndex ∧
    s.buffer.writerIndex ≤ s.buffer.buffer.length ∧
    s.left++s.buffer.readable = s.entered ∧
    ∀ op, s.fits op → ∃ t, s.step op = some t := by
  obtain ⟨q,hq⟩ := Ledger.Holds.path h hp
  refine ⟨hq.bounded.prepend,hq.bounded.reader,hq.bounded.writer,?_,?_⟩
  · rw [hq.left,hq.waiting,hq.entered,q.balanced]
  · intro op hop
    obtain ⟨t,ht,-⟩ := hq.step hop
    exact ⟨t,ht⟩

theorem buffer_fifo_two : ∃ s : Ledger, s.buffer.readable = ['c','d'] ∧ s.left = ['a','b'] ∧
    s.left++s.buffer.readable = s.entered := by
  obtain ⟨s,hp,ht⟩ := Machine.exec_any (Ledger.machine 2) Ledger.fits (.new 2)
    [.append ['a','b'],.readFd ['c'],.retrieve 1,.retrieveAsString 1,.append ['d']]
    (fun s => s.buffer.readable = ['c','d'] ∧ s.left = ['a','b']) (by decide +kernel)
  have hs : s.buffer.readable = ['c','d'] ∧ s.left = ['a','b'] := by simpa using ht
  exact ⟨s,hs.1,hs.2,(buffer_fifo (by decide) hp).2.2.2.1⟩

/-- The sum in the constructor wraps for the largest sizes, and the indices then start
behind the end of the vector. -/
theorem buffer_fifo_wraps : ¬ ∀ (initialSize : Nat) (s : Ledger), initialSize < 2^64 →
    (Ledger.machine initialSize).Path Ledger.fits (.new initialSize) s →
    s.buffer.writerIndex ≤ s.buffer.buffer.length := by
  intro h
  have hw := h (2^64-1) _ (by decide) (.refl _)
  have hlen : (Buffer.new (2^64-1)).buffer.length = 7 := by
    rw [Buffer.new,List.length_replicate]
    decide +kernel
  have h8 : (8 : Nat) ≤ (Buffer.new (2^64-1)).buffer.length := hw
  omega

end SRaftMuduo
