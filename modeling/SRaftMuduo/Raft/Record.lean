import SRaftMuduo.Framework.Wire
import SRaftMuduo.Math.Words

namespace SRaftMuduo

open Wire

/-- The message `LogEntry` with the presence of its fields. -/
structure LogEntryMessage where
  index : Option Int
  term : Option Nat
  command : Option Int
  data : Option CString
  deriving DecidableEq

namespace LogEntryMessage

def empty : LogEntryMessage := ⟨none,none,none,none⟩

def indexField (m : LogEntryMessage) : Option Field := m.index.map fun i => .varint 1 (toU64 i)
def termField (m : LogEntryMessage) : Option Field := m.term.map (.varint 2)
def commandField (m : LogEntryMessage) : Option Field := m.command.map fun c => .varint 3 (toU64 c)
def dataField (m : LogEntryMessage) : Option Field := m.data.map (.bytes 4)

/-- The fields in the order of `_InternalSerialize`. -/
def fields (m : LogEntryMessage) : List Field :=
  m.indexField.toList++(m.termField.toList++(m.commandField.toList++(m.dataField.toList++[])))

def serialize (m : LogEntryMessage) : CString := encode m.fields

/-- One turn of the loop of `_InternalParse`; a field that is not all there stays unset. -/
def set (m : LogEntryMessage) : Token → LogEntryMessage
  | .whole (.varint 1 v) => {m with index := some (toI64 v)}
  | .whole (.varint 2 v) => {m with term := some v}
  | .whole (.varint 3 v) => {m with command := some (toI32 v)}
  | .whole (.bytes 4 d) => {m with data := some d}
  | _ => m

def parse (cs : CString) : LogEntryMessage := (lex cs).foldl set empty

/-- The values that the types of the fields hold. -/
structure InRange (m : LogEntryMessage) : Prop where
  index : ∀ i ∈ m.index, -2^63 ≤ i ∧ i < 2^63
  term : ∀ t ∈ m.term, t < 2^64
  command : ∀ c ∈ m.command, -2^31 ≤ c ∧ c < 2^31
  data : ∀ d ∈ m.data, d.length < 2^64
  size : m.serialize.length < 2^64

def indexEnd (m : LogEntryMessage) : Nat := optionalSize m.indexField
def termEnd (m : LogEntryMessage) : Nat := m.indexEnd+optionalSize m.termField
def commandEnd (m : LogEntryMessage) : Nat := m.termEnd+optionalSize m.commandField
def dataEnd (m : LogEntryMessage) : Nat := m.commandEnd+optionalSize m.dataField

/-- The fields that lie in the first `k` bytes. -/
def cut (m : LogEntryMessage) (k : Nat) : LogEntryMessage where
  index := if m.indexEnd ≤ k then m.index else none
  term := if m.termEnd ≤ k then m.term else none
  command := if m.commandEnd ≤ k then m.command else none
  data := if m.dataEnd ≤ k then m.data else none

variable {m : LogEntryMessage}

theorem fields_small (h : m.InRange) : ∀ f ∈ m.fields, f.Small := by
  intro f hf
  simp only [fields,indexField,termField,commandField,dataField,List.mem_append,
    Option.mem_toList,Option.map_eq_some_iff,List.not_mem_nil,or_false] at hf
  rcases hf with ⟨i,hi,rfl⟩ | ⟨t,ht,rfl⟩ | ⟨c,hc,rfl⟩ | ⟨d,hd,rfl⟩
  · exact ⟨by decide,toU64_lt i⟩
  · exact ⟨by decide,h.term t ht⟩
  · exact ⟨by decide,toU64_lt c⟩
  · exact ⟨by decide,h.data d hd⟩

theorem set_cut (m : LogEntryMessage) (num : Nat) (cs : CString) : m.set (.cut num cs) = m := rfl

theorem set_index (h : ∀ i ∈ m.index, -2^63 ≤ i ∧ i < 2^63) :
    m.indexField.elim empty (fun f => empty.set (.whole f)) = ⟨m.index,none,none,none⟩ := by
  unfold indexField
  cases hi : m.index with
  | none => rfl
  | some i =>
    have hconv := toI64_toU64 (h i hi).1 (h i hi).2
    show (⟨some (toI64 (toU64 i)),none,none,none⟩ : LogEntryMessage) = _
    rw [hconv]

theorem set_term (index : Option Int) :
    m.termField.elim ⟨index,none,none,none⟩ (fun f => set ⟨index,none,none,none⟩ (.whole f)) =
      ⟨index,m.term,none,none⟩ := by
  unfold termField
  cases m.term <;> rfl

theorem set_command (h : ∀ c ∈ m.command, -2^31 ≤ c ∧ c < 2^31) (index : Option Int)
    (term : Option Nat) :
    m.commandField.elim ⟨index,term,none,none⟩ (fun f => set ⟨index,term,none,none⟩ (.whole f)) =
      ⟨index,term,m.command,none⟩ := by
  unfold commandField
  cases hc : m.command with
  | none => rfl
  | some c =>
    have hconv := toI32_toU64 (h c hc).1 (h c hc).2
    show (⟨index,term,some (toI32 (toU64 c)),none⟩ : LogEntryMessage) = _
    rw [hconv]

theorem set_data (index : Option Int) (term : Option Nat) (command : Option Int) :
    m.dataField.elim ⟨index,term,command,none⟩
      (fun f => set ⟨index,term,command,none⟩ (.whole f)) = ⟨index,term,command,m.data⟩ := by
  unfold dataField
  cases m.data <;> rfl

/-- A message cut after `k` bytes has the fields that lie in them. -/
theorem parse_take (h : m.InRange) (k : Nat) : parse (m.serialize.take k) = m.cut k := by
  rw [parse,serialize,lex_take (fields_small h),fields,foldl_optional set_cut,
    foldl_optional set_cut,foldl_optional set_cut,foldl_optional set_cut,set_index h.index,
    set_term,set_command h.command,set_data,cut,dataEnd,commandEnd,termEnd,indexEnd]
  generalize optionalSize m.indexField = a
  generalize optionalSize m.termField = b
  generalize optionalSize m.commandField = c
  generalize optionalSize m.dataField = d
  simp only [cutTokens,List.foldl_nil]
  split_ifs <;> first | rfl | omega

theorem dataEnd_eq (m : LogEntryMessage) : m.dataEnd = m.serialize.length := by
  rw [serialize,fields,encode_optional_length,encode_optional_length,encode_optional_length,
    encode_optional_length,dataEnd,commandEnd,termEnd,indexEnd]
  show _ = _+(_+(_+(_+0)))
  omega

/-- A whole message reads as it was. -/
theorem parse_serialize (h : m.InRange) : parse m.serialize = m := by
  have htake := parse_take h m.serialize.length
  rw [List.take_length] at htake
  have hdata := dataEnd_eq m
  have hcommand : m.commandEnd ≤ m.dataEnd := Nat.le_add_right _ _
  have hterm : m.termEnd ≤ m.commandEnd := Nat.le_add_right _ _
  have hindex : m.indexEnd ≤ m.termEnd := Nat.le_add_right _ _
  rw [htake,cut,if_pos (by omega),if_pos (by omega),if_pos (by omega),if_pos (by omega)]

end LogEntryMessage

/-- The message `PersistRecord` as `Dump` fills it and `Load` reads it, with the default for a
field that is not set. -/
structure PersistRecordMessage where
  term : Nat
  name : CString
  voteFor : CString
  entries : List LogEntryMessage
  deriving DecidableEq

namespace PersistRecordMessage

def empty : PersistRecordMessage := ⟨0,[],[],[]⟩

def termField (r : PersistRecordMessage) : Field := .varint 1 r.term
def nameField (r : PersistRecordMessage) : Field := .bytes 2 r.name
def voteField (r : PersistRecordMessage) : Field := .bytes 3 r.voteFor
def entryField (e : LogEntryMessage) : Field := .bytes 4 e.serialize

/-- `last_seq` is always 0. -/
def lastSeqField : Field := .varint 6 0

def fields (r : PersistRecordMessage) : List Field :=
  r.termField::r.nameField::r.voteField::(r.entries.map entryField++[lastSeqField])

def serialize (r : PersistRecordMessage) : CString := encode r.fields

/-- One turn of the loop of `_InternalParse`. An entry is added when its tag is read, with the
fields that are there. -/
def set (r : PersistRecordMessage) : Token → PersistRecordMessage
  | .whole (.varint 1 v) => {r with term := v}
  | .whole (.bytes 2 s) => {r with name := s}
  | .whole (.bytes 3 s) => {r with voteFor := s}
  | .whole (.bytes 4 s) => {r with entries := r.entries++[.parse s]}
  | .cut 4 s => {r with entries := r.entries++[.parse s]}
  | _ => r

def parse (cs : CString) : PersistRecordMessage := (lex cs).foldl set empty

structure InRange (r : PersistRecordMessage) : Prop where
  term : r.term < 2^64
  name : r.name.length < 2^64
  voteFor : r.voteFor.length < 2^64
  entries : ∀ e ∈ r.entries, e.InRange

def termEnd (r : PersistRecordMessage) : Nat := r.termField.size
def nameEnd (r : PersistRecordMessage) : Nat := r.termEnd+r.nameField.size
def voteEnd (r : PersistRecordMessage) : Nat := r.nameEnd+r.voteField.size

/-- The entries that lie in the first `k` bytes of their fields, and of the next one the
fields that do. -/
def cutEntries : List LogEntryMessage → Nat → List LogEntryMessage
  | [], _ => []
  | e::es, k =>
    if (entryField e).size ≤ k then e::cutEntries es (k-(entryField e).size)
    else if k = 0 then [] else [e.cut (k-1-(writeVarint e.serialize.length).length)]

variable {r : PersistRecordMessage} {es : List LogEntryMessage} {k : Nat}

theorem fields_small (h : r.InRange) : ∀ f ∈ r.fields, f.Small := by
  intro f hf
  rw [fields,List.mem_cons,List.mem_cons,List.mem_cons,List.mem_append,List.mem_map,
    List.mem_singleton] at hf
  rcases hf with rfl | rfl | rfl | ⟨e,he,rfl⟩ | rfl
  · exact ⟨by decide,h.term⟩
  · exact ⟨by decide,h.name⟩
  · exact ⟨by decide,h.voteFor⟩
  · exact ⟨by decide,(h.entries e he).size⟩
  · exact ⟨by decide,by decide⟩

theorem foldl_entries (h : ∀ e ∈ es, e.InRange) (r : PersistRecordMessage) (k : Nat) :
    (cutTokens (es.map entryField++[lastSeqField]) k).foldl set r =
      {r with entries := r.entries++cutEntries es k} := by
  induction es generalizing r k with
  | nil =>
    show (cutTokens [lastSeqField] k).foldl set r = {r with entries := r.entries++[]}
    rw [foldl_field (fun _ _ => rfl),cutTokens,List.append_nil]
    split_ifs <;> rfl
  | cons e es ih =>
    have he : e.InRange := h e List.mem_cons_self
    rw [List.map_cons,List.cons_append,cutTokens,cutEntries]
    split_ifs
    · rw [List.foldl_cons,ih (fun e hm => h e (List.mem_cons_of_mem _ hm))]
      show PersistRecordMessage.mk r.term r.name r.voteFor
        (r.entries++[.parse e.serialize]++_) = _
      rw [LogEntryMessage.parse_serialize he,List.append_assoc]
      rfl
    · rw [List.append_nil]
      rfl
    · show PersistRecordMessage.mk r.term r.name r.voteFor
        (r.entries++[.parse (e.serialize.take _)]) = _
      rw [LogEntryMessage.parse_take he]

/-- A record cut after `k` bytes. -/
theorem parse_take (h : r.InRange) (k : Nat) : parse (r.serialize.take k) =
    if k < r.termEnd then empty
    else if k < r.nameEnd then ⟨r.term,[],[],[]⟩
    else if k < r.voteEnd then ⟨r.term,r.name,[],[]⟩
    else ⟨r.term,r.name,r.voteFor,cutEntries r.entries (k-r.voteEnd)⟩ := by
  rw [parse,serialize,lex_take (fields_small h),fields,foldl_field (fun _ _ => rfl),
    foldl_field (fun _ _ => rfl),foldl_field (fun _ _ => rfl),foldl_entries h.entries,voteEnd,
    nameEnd,termEnd]
  generalize r.termField.size = a
  generalize r.nameField.size = b
  generalize r.voteField.size = c
  have hsub : k-a-b-c = k-(a+b+c) := by omega
  rw [hsub]
  split_ifs <;> first | rfl | omega

theorem cutEntries_all (h : (encode (es.map entryField)).length ≤ k) : cutEntries es k = es := by
  induction es generalizing k with
  | nil => rfl
  | cons e es ih =>
    rw [List.map_cons,encode_cons,List.length_cons,List.length_append] at h
    have hsize : (entryField e).size = 1+(entryField e).body.length := rfl
    rw [cutEntries,if_pos (by omega),ih (by omega)]

/-- Once the entries are there the record reads as it was. -/
theorem parse_take_all (h : r.InRange)
    (hk : r.voteEnd+(encode (r.entries.map entryField)).length ≤ k) :
    parse (r.serialize.take k) = r := by
  have hname : r.termEnd ≤ r.nameEnd := Nat.le_add_right _ _
  have hvote : r.nameEnd ≤ r.voteEnd := Nat.le_add_right _ _
  rw [parse_take h,if_neg (by omega),if_neg (by omega),if_neg (by omega),
    cutEntries_all (by omega)]

theorem serialize_length (r : PersistRecordMessage) : r.serialize.length =
    r.voteEnd+(encode (r.entries.map entryField)).length+lastSeqField.size := by
  have hlast : encode [lastSeqField] = lastSeqField.encode := List.append_nil _
  rw [serialize,fields,encode_cons,encode_cons,encode_cons,encode_append,hlast,voteEnd,nameEnd,
    termEnd]
  simp only [List.length_cons,List.length_append,Field.size,Field.encode]
  omega

theorem parse_serialize (h : r.InRange) : parse r.serialize = r := by
  have htake := parse_take_all h (k := r.serialize.length) (by rw [serialize_length]; omega)
  rw [List.take_length] at htake
  exact htake

end PersistRecordMessage

end SRaftMuduo
