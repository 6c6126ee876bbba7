import SRaftMuduo.Framework.Wire
import SRaftMuduo.Math.Words

namespace SRaftMuduo

namespace Wire

inductive Kind
  | int64
  | int32
  | uint64
  | bool
  | bytes
  deriving DecidableEq

inductive Label
  | required
  | optional
  | repeated
  deriving DecidableEq

/-- A line of a message definition. -/
structure Item where
  num : Nat
  kind : Kind
  label : Label
  deriving DecidableEq

abbrev Schema := List Item

inductive Scalar
  | int (v : Int)
  | uint (v : Nat)
  | bool (v : Bool)
  | bytes (data : List Char)
  deriving DecidableEq

/-- The values of a message, for each line of its definition the ones that are there. -/
abbrev Values := List (List Scalar)

namespace Scalar

/-- The value is one of the kind. -/
def Fits : Kind → Scalar → Prop
  | .int64, .int v => -2^63 ≤ v ∧ v < 2^63
  | .int32, .int v => -2^31 ≤ v ∧ v < 2^31
  | .uint64, .uint v => v < 2^64
  | .bool, .bool _ => True
  | .bytes, .bytes data => data.length < 2^64
  | _, _ => False

instance : ∀ (kind : Kind) (v : Scalar), Decidable (v.Fits kind)
  | .int64, .int _ | .int32, .int _ => inferInstanceAs (Decidable (_ ∧ _))
  | .uint64, .uint _ | .bytes, .bytes _ => inferInstanceAs (Decidable (_ < _))
  | .bool, .bool _ => .isTrue trivial
  | .int64, .uint _ | .int64, .bool _ | .int64, .bytes _ => .isFalse id
  | .int32, .uint _ | .int32, .bool _ | .int32, .bytes _ => .isFalse id
  | .uint64, .int _ | .uint64, .bool _ | .uint64, .bytes _ => .isFalse id
  | .bool, .int _ | .bool, .uint _ | .bool, .bytes _ => .isFalse id
  | .bytes, .int _ | .bytes, .uint _ | .bytes, .bool _ => .isFalse id

def field (num : Nat) : Scalar → Field
  | .int v => .varint num (toU64 v)
  | .uint v => .varint num v
  | .bool v => .varint num v.toNat
  | .bytes data => .bytes num data

end Scalar

namespace Item

/-- A field with the number of the line and another wire type is not one of the line. -/
def read (it : Item) : Field → Option Scalar
  | .varint num v =>
    if num = it.num then
      match it.kind with
      | .int64 => some (.int (toI64 v))
      | .int32 => some (.int (toI32 v))
      | .uint64 => some (.uint v)
      | .bool => some (.bool (v ≠ 0))
      | .bytes => none
    else none
  | .bytes num data => if num = it.num ∧ it.kind = .bytes then some (.bytes data) else none

/-- Of a line that is not repeated the last value counts. -/
def collect (it : Item) (fs : List Field) : Option (List Scalar) :=
  let found := fs.filterMap it.read
  match it.label with
  | .required => found.getLast?.map ([·])
  | .optional => some found.getLast?.toList
  | .repeated => some found

/-- The values that a line can have. -/
structure Fits (it : Item) (vs : List Scalar) : Prop where
  num : it.num < 16
  values : ∀ v ∈ vs, v.Fits it.kind
  label : match it.label with
    | .required => vs.length = 1
    | .optional => vs.length ≤ 1
    | .repeated => True

end Item

/-- The fields in the order of the definition. -/
def fieldsOf : Schema → Values → List Field
  | it::its, vs::rest => vs.map (Scalar.field it.num)++fieldsOf its rest
  | _, _ => []

def decode (schema : Schema) (fs : List Field) : Option Values := schema.mapM (·.collect fs)

/-- A message that ends inside a field does not parse. -/
def strict (ts : List Token) : Option (List Field) :=
  ts.mapM fun
    | .whole f => some f
    | .cut .. => none

def serialize (schema : Schema) (vs : Values) : List Char := encode (fieldsOf schema vs)

/-- `ParseFromString` with its check of the required fields. -/
def parse (schema : Schema) (cs : List Char) : Option Values :=
  (strict (lex cs)).bind (decode schema)

/-- Every value is one of the type of its field. -/
def Typed (schema : Schema) (values : Values) : Prop :=
  List.Forall₂ (fun it vs => ∀ v ∈ vs, Scalar.Fits it.kind v) schema values

instance (schema : Schema) (values : Values) : Decidable (Typed schema values) :=
  inferInstanceAs (Decidable (List.Forall₂ _ _ _))

variable {it : Item} {schema : Schema} {vs : List Scalar} {values : Values} {f : Field}
  {fs : List Field} {n k : Nat}

theorem Scalar.field_num (v : Scalar) : (v.field n).num = n := by
  cases v <;> rfl

theorem Scalar.field_small {v : Scalar} {kind : Kind} (hn : n < 16) (h : v.Fits kind) :
    (v.field n).Small := by
  cases v with
  | int v => exact ⟨hn,toU64_lt v⟩
  | uint v =>
    cases kind with
    | uint64 => exact ⟨hn,h⟩
    | int64 | int32 | bool | bytes => exact h.elim
  | bool v => exact ⟨hn,by cases v <;> decide⟩
  | bytes data =>
    cases kind with
    | bytes => exact ⟨hn,h⟩
    | int64 | int32 | uint64 | bool => exact h.elim

theorem Item.read_field {v : Scalar} (h : v.Fits it.kind) : it.read (v.field it.num) = some v := by
  cases v with
  | int v =>
    cases hk : it.kind with
    | int64 =>
      rw [hk] at h
      simp [Scalar.field,Item.read,hk,toI64_toU64 h.1 h.2]
    | int32 =>
      rw [hk] at h
      simp [Scalar.field,Item.read,hk,toI32_toU64 h.1 h.2]
    | uint64 | bool | bytes =>
      rw [hk] at h
      exact h.elim
  | uint v =>
    cases hk : it.kind with
    | uint64 => simp [Scalar.field,Item.read,hk]
    | int64 | int32 | bool | bytes =>
      rw [hk] at h
      exact h.elim
  | bool v =>
    cases hk : it.kind with
    | bool => cases v <;> simp [Scalar.field,Item.read,hk]
    | int64 | int32 | uint64 | bytes =>
      rw [hk] at h
      exact h.elim
  | bytes data =>
    cases hk : it.kind with
    | bytes => simp [Scalar.field,Item.read,hk]
    | int64 | int32 | uint64 | bool =>
      rw [hk] at h
      exact h.elim

theorem Item.read_other (h : f.num ≠ it.num) : it.read f = none := by
  cases f with
  | varint num v => exact if_neg h
  | bytes num data => exact if_neg fun hn => h hn.1

theorem filterMap_own (h : ∀ v ∈ vs, v.Fits it.kind) :
    (vs.map (Scalar.field it.num)).filterMap it.read = vs := by
  induction vs with
  | nil => rfl
  | cons v vs ih =>
    rw [List.map_cons,List.filterMap_cons,it.read_field (h v List.mem_cons_self),
      ih fun v hv => h v (List.mem_cons_of_mem _ hv)]

theorem filterMap_others (h : ∀ f ∈ fs, f.num ≠ it.num) : fs.filterMap it.read = [] :=
  List.filterMap_eq_nil_iff.mpr fun f hf => it.read_other (h f hf)

theorem fieldsOf_num (h : f ∈ fieldsOf schema values) : f.num ∈ schema.map Item.num := by
  induction schema generalizing values with
  | nil => simp [fieldsOf] at h
  | cons it its ih =>
    cases values with
    | nil => simp [fieldsOf] at h
    | cons vs rest =>
      rw [fieldsOf,List.mem_append] at h
      cases h with
      | inl h =>
        obtain ⟨v,-,rfl⟩ := List.mem_map.mp h
        simp [Scalar.field_num]
      | inr h => exact List.mem_cons_of_mem _ (ih h)

theorem Item.Fits.collected (h : it.Fits vs) (hfs : fs.filterMap it.read = vs) :
    it.collect fs = some vs := by
  have hlabel := h.label
  rw [Item.collect,hfs]
  cases hl : it.label with
  | required =>
    rw [hl] at hlabel
    obtain ⟨v,rfl⟩ := List.length_eq_one_iff.mp hlabel
    rfl
  | optional =>
    rw [hl] at hlabel
    match vs, hlabel with
    | [], _ => rfl
    | [v], _ => rfl
  | repeated => rfl

/-- The values of every line fit it, and no two lines have one number. -/
structure Fits (schema : Schema) (values : Values) : Prop where
  lines : List.Forall₂ Item.Fits schema values
  nums : (schema.map Item.num).Nodup

theorem fieldsOf_small (h : List.Forall₂ Item.Fits schema values) :
    ∀ f ∈ fieldsOf schema values, f.Small := by
  induction h with
  | nil => simp [fieldsOf]
  | cons hit _ ih =>
    intro f hf
    rw [fieldsOf,List.mem_append] at hf
    cases hf with
    | inl hf =>
      obtain ⟨v,hv,rfl⟩ := List.mem_map.mp hf
      exact Scalar.field_small hit.num (hit.values v hv)
    | inr hf => exact ih f hf

/-- Fields of other messages before do not matter. -/
theorem decode_fieldsOf (h : Fits schema values) (pre : List Field)
    (hpre : ∀ f ∈ pre, f.num ∉ schema.map Item.num) :
    decode schema (pre++fieldsOf schema values) = some values := by
  obtain ⟨hlines,hnums⟩ := h
  induction hlines generalizing pre with
  | nil => rfl
  | @cons it vs its rest hit _ ih =>
    rw [List.map_cons,List.nodup_cons] at hnums
    have hfound : (pre++fieldsOf (it::its) (vs::rest)).filterMap it.read = vs := by
      have hbefore : pre.filterMap it.read = [] :=
        filterMap_others fun f hf heq => hpre f hf (by rw [heq]; exact List.mem_cons_self)
      have hafter : (fieldsOf its rest).filterMap it.read = [] :=
        filterMap_others fun f hf heq => hnums.1 (heq ▸ fieldsOf_num hf)
      rw [fieldsOf,List.filterMap_append,List.filterMap_append,hbefore,hafter,
        filterMap_own hit.values,List.nil_append,List.append_nil]
    have hpre' : ∀ f ∈ pre++vs.map (Scalar.field it.num), f.num ∉ its.map Item.num := by
      intro f hf
      rw [List.mem_append] at hf
      cases hf with
      | inl hf => exact fun hmem => hpre f hf (List.mem_cons_of_mem _ hmem)
      | inr hf =>
        obtain ⟨v,-,rfl⟩ := List.mem_map.mp hf
        rw [Scalar.field_num]
        exact hnums.1
    have hrest := ih _ hpre' hnums.2
    rw [fieldsOf,← List.append_assoc] at hfound ⊢
    rw [decode] at hrest ⊢
    rw [List.mapM_cons,hit.collected hfound,hrest]
    rfl

theorem strict_whole (fs : List Field) : strict (fs.map .whole) = some fs := by
  induction fs with
  | nil => rfl
  | cons f fs ih =>
    rw [strict] at ih
    rw [strict,List.map_cons,List.mapM_cons,ih]
    rfl

theorem cutTokens_all (h : (encode fs).length ≤ k) : cutTokens fs k = fs.map .whole := by
  induction fs generalizing k with
  | nil => rfl
  | cons f fs ih =>
    have hsize : (encode (f::fs)).length = f.size+(encode fs).length := by
      rw [encode_cons,List.length_cons,List.length_append,Field.size]
      omega
    rw [cutTokens,if_pos (by omega),ih (by omega)]
    rfl

/-- A message that is all there reads as it was. -/
theorem parse_serialize (h : Fits schema values) :
    parse schema (serialize schema values) = some values := by
  have hlex := lex_take (fieldsOf_small h.lines) (encode (fieldsOf schema values)).length
  rw [cutTokens_all (Nat.le_refl _),List.take_length] at hlex
  have hdecode := decode_fieldsOf h [] nofun
  rw [parse,serialize,hlex,strict_whole]
  exact hdecode

/-- What parses of a cut message is the fields before the cut, and not all of them. -/
theorem strict_cut (hk : k < (encode fs).length) {gs : List Field}
    (h : strict (cutTokens fs k) = some gs) : ∃ j, j < fs.length ∧ gs = fs.take j := by
  induction fs generalizing k gs with
  | nil => exact absurd hk (Nat.not_lt_zero _)
  | cons f fs ih =>
    have hsize : (encode (f::fs)).length = f.size+(encode fs).length := by
      rw [encode_cons,List.length_cons,List.length_append,Field.size]
      omega
    rw [cutTokens] at h
    split_ifs at h with hle hzero
    · rw [strict,List.mapM_cons] at h
      obtain ⟨f',hf',h⟩ := Option.bind_eq_some_iff.mp h
      obtain ⟨gs',hgs',h⟩ := Option.bind_eq_some_iff.mp h
      obtain rfl := Option.some.inj hf'
      obtain rfl := Option.some.inj h
      obtain ⟨j,hj,rfl⟩ := ih (by omega) hgs'
      exact ⟨j+1,Nat.succ_lt_succ hj,rfl⟩
    · obtain rfl := Option.some.inj h
      exact ⟨0,Nat.succ_pos _,rfl⟩
    · cases h

theorem decode_none (hit : it ∈ schema) (h : it.collect fs = none) : decode schema fs = none := by
  induction schema with
  | nil => cases hit
  | cons it' its ih =>
    rw [decode,List.mapM_cons]
    cases List.mem_cons.mp hit with
    | inl heq =>
      rw [← heq,h]
      rfl
    | inr hmem =>
      have hrest := ih hmem
      rw [decode] at hrest
      rw [hrest]
      cases it'.collect fs <;> rfl

/-- Every line has as many values as its label wants. -/
def complete : Schema → Values → Bool
  | it::its, vs::rest =>
    (match it.label with
    | .required => vs.length == 1
    | .optional => decide (vs.length ≤ 1)
    | .repeated => true) && complete its rest
  | _, _ => true

theorem Typed.lines (h : Typed schema values) (hc : complete schema values = true)
    (hnum : ∀ it ∈ schema, it.num < 16) : List.Forall₂ Item.Fits schema values := by
  induction h with
  | nil => exact .nil
  | @cons it vs its rest hit _ ih =>
    rw [complete,Bool.and_eq_true] at hc
    refine .cons ⟨hnum it List.mem_cons_self,hit,?_⟩
      (ih hc.2 fun it hmem => hnum it (List.mem_cons_of_mem _ hmem))
    have hlabel := hc.1
    cases hl : it.label with
    | required =>
      rw [hl] at hlabel
      exact eq_of_beq hlabel
    | optional =>
      rw [hl] at hlabel
      exact of_decide_eq_true hlabel
    | repeated => trivial

/-- The last field of a message whose last line is required is the value of that line. -/
theorem fieldsOf_last (h : List.Forall₂ Item.Fits (schema++[it]) values)
    (hit : it.label = .required) :
    ∃ (values' : Values) (v : Scalar),
      fieldsOf (schema++[it]) values = fieldsOf schema values'++[v.field it.num] := by
  induction schema generalizing values with
  | nil =>
    cases h with
    | cons hvs hnil =>
      cases hnil
      have hlabel := hvs.label
      rw [hit] at hlabel
      obtain ⟨v,rfl⟩ := List.length_eq_one_iff.mp hlabel
      exact ⟨[],v,rfl⟩
  | cons it' its ih =>
    cases h with
    | @cons _ vs _ _ hvs hrest =>
      obtain ⟨values',v,hlast⟩ := ih hrest
      exact ⟨vs::values',v,by rw [List.cons_append,fieldsOf,hlast,fieldsOf,List.append_assoc]⟩

/-- A message whose last line is required does not parse when it is cut. -/
theorem parse_take (h : Fits (schema++[it]) values) (hit : it.label = .required)
    (hk : k < (serialize (schema++[it]) values).length) :
    parse (schema++[it]) ((serialize (schema++[it]) values).take k) = none := by
  rw [parse,serialize,lex_take (fieldsOf_small h.lines)]
  cases hs : strict (cutTokens (fieldsOf (schema++[it]) values) k) with
  | none => rfl
  | some gs =>
    obtain ⟨j,hj,rfl⟩ := strict_cut hk hs
    obtain ⟨values',v,hlast⟩ := fieldsOf_last h.lines hit
    rw [hlast,List.length_append,List.length_singleton] at hj
    have hmem : it ∈ schema++[it] := by simp
    refine decode_none hmem ?_
    have hnone : ((fieldsOf (schema++[it]) values).take j).filterMap it.read = [] := by
      refine filterMap_others fun f hf heq => ?_
      rw [hlast,List.take_append_of_le_length (by omega)] at hf
      have hmem := fieldsOf_num (List.mem_of_mem_take hf)
      have hnums := h.nums
      rw [List.map_append,List.nodup_append] at hnums
      exact hnums.2.2 _ (heq ▸ hmem) it.num (by simp) rfl
    rw [Item.collect,hnone,hit]
    rfl

/-- A message definition whose lines have different numbers below 16, the last of them
required. -/
structure Closed (schema : Schema) : Prop where
  nums : (schema.map Item.num).Nodup
  small : ∀ it ∈ schema, it.num < 16
  last : schema.getLast?.map Item.label = some .required

/-- Of a message of such a definition there is all or nothing. -/
theorem Closed.parse_take (hschema : Closed schema) (h : Typed schema values)
    (hc : complete schema values = true) (k : Nat) :
    parse schema ((serialize schema values).take k) =
      if (serialize schema values).length ≤ k then some values else none := by
  have hfits : Fits schema values := ⟨h.lines hc hschema.small,hschema.nums⟩
  split_ifs with hk
  · rw [List.take_of_length_le hk,parse_serialize hfits]
  · obtain ⟨it,hlast,hit⟩ := Option.map_eq_some_iff.mp hschema.last
    obtain ⟨init,rfl⟩ := List.getLast?_eq_some_iff.mp hlast
    exact Wire.parse_take hfits hit (Nat.lt_of_not_le hk)

end Wire

end SRaftMuduo
