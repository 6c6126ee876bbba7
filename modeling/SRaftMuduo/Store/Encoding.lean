import SRaftMuduo.Store.Command
import Mathlib.Data.List.Infix
import Mathlib.Data.List.TakeWhile

namespace SRaftMuduo

/-- What `ss>>token` can read back: a nonempty string without whitespace. -/
def Token (s : CString) : Prop := s ≠ [] ∧ ∀ c ∈ s, isSpace c = false

instance (s : CString) : Decidable (Token s) :=
  @instDecidableAnd _ _ inferInstance (List.decidableBAll _ s)

theorem Token.append {s t : CString} (hs : ∀ c ∈ s, isSpace c = false) (ht : Token t) :
    Token (s++t) := by
  refine ⟨fun h => ht.1 (List.append_eq_nil_iff.mp h).2,?_⟩
  intro c hc
  rcases List.mem_append.mp hc with h | h
  · exact hs c h
  · exact ht.2 c h

theorem extract_token {ss token rest : CString} (h : extract ss = some (token,rest)) :
    Token token := by
  unfold extract at h
  dsimp only at h
  split_ifs at h with hne
  obtain ⟨rfl,-⟩ := Prod.mk.inj (Option.some.inj h)
  constructor
  · intro he
    cases hd : ss.dropWhile isSpace with
    | nil => exact hne hd
    | cons c cs =>
      have hc : isSpace c = false := by
        have hh := List.head?_dropWhile_not isSpace ss
        rw [hd] at hh
        simpa using hh
      rw [hd,List.takeWhile_cons] at he
      simp [hc] at he
  · intro c hc
    simpa using List.mem_takeWhile_imp hc

/-- A token in front of the end or of whitespace is read back as it is. -/
theorem extract_append {token rest : CString} (ht : Token token)
    (hr : rest = [] ∨ ∃ c cs, rest = c::cs ∧ isSpace c = true) :
    extract (token++rest) = some (token,rest) := by
  obtain ⟨hne,hall⟩ := ht
  have hdrop : (token++rest).dropWhile isSpace = token++rest := by
    cases token with
    | nil => exact absurd rfl hne
    | cons c cs => simp [hall c (by simp)]
  have hpos : ∀ c ∈ token, (fun c => !isSpace c) c = true := fun c hc => by simp [hall c hc]
  have hrest : rest.takeWhile (fun c => !isSpace c) = [] ∧
      rest.dropWhile (fun c => !isSpace c) = rest := by
    rcases hr with rfl | ⟨c,cs,rfl,hc⟩
    · simp
    · simp [hc]
  unfold extract
  rw [hdrop,if_neg (fun h => hne (List.append_eq_nil_iff.mp h).1),
    List.takeWhile_append_of_pos hpos,List.dropWhile_append_of_pos hpos,hrest.1,hrest.2,
    List.append_nil]

theorem extract_space (c : Char) (ss : CString) (hc : isSpace c = true) :
    extract (c::ss) = extract ss := by
  unfold extract
  rw [List.dropWhile_cons_of_pos hc]

theorem isSpace_blank : isSpace ' ' = true := by decide

theorem opPut_token : Token opPut := by decide

theorem opAppend_token : Token opAppend := by decide

theorem parse_tokens {cmd op key value : CString} (h : parse cmd = some (op,key,value)) :
    Token key ∧ Token value := by
  simp only [parse,Option.bind_eq_some_iff,Option.map_eq_some_iff] at h
  obtain ⟨a,-,b,hb,v,hv,he⟩ := h
  obtain ⟨-,hk,hw⟩ : a.1 = op ∧ b.1 = key ∧ v.1 = value := by simpa using he
  exact ⟨hk ▸ extract_token hb,hw ▸ extract_token hv⟩

/-- `op key ` has been read: the parser goes on with the value. -/
theorem parse_start {op key : CString} (value : CString) (ho : Token op) (hk : Token key) :
    parse (op++[' ']++key++[' ']++value) =
      (extract value).map fun v => (op,key,v.1) := by
  have hblank (rest : CString) : ' ' :: rest = [] ∨
      ∃ c cs, ' ' :: rest = c::cs ∧ isSpace c = true := .inr ⟨_,_,rfl,isSpace_blank⟩
  have h1 : extract (op ++ ' ' :: (key ++ ' ' :: value)) =
      some (op, ' ' :: (key ++ ' ' :: value)) :=
    extract_append ho (hblank _)
  have h2 : extract ( ' ' :: (key ++ ' ' :: value)) = some (key, ' ' :: value) := by
    rw [extract_space _ _ isSpace_blank]
    exact extract_append hk (hblank _)
  simp only [parse,List.append_assoc,List.cons_append,List.nil_append,h1,Option.bind_some,h2]
  rw [extract_space _ _ isSpace_blank]

theorem parse_command {op key value : CString} (ho : Token op) (hk : Token key)
    (hv : Token value) : parse (op++[' ']++key++[' ']++value) = some (op,key,value) := by
  have hread : extract value = some (value,[]) := by
    simpa using extract_append hv (.inl rfl)
  rw [parse_start value ho hk,hread]
  rfl

theorem parse_command_empty {op key : CString} (ho : Token op) (hk : Token key) :
    parse (op++[' ']++key++[' ']++[]) = none := by
  rw [parse_start [] ho hk]
  rfl

/-- Every key and every value of the store is a token. -/
def TokenStore (db : Store) : Prop := ∀ key value, db key = some value → Token key ∧ Token value

theorem TokenStore.initial : TokenStore Store.initial := by
  intro key value h
  unfold Store.initial at h
  split_ifs at h with hk
  obtain rfl := Option.some.inj h
  subst hk
  decide

theorem TokenStore.assign {db : Store} (h : TokenStore db) {key value : CString}
    (hk : Token key) (hv : Token value) : TokenStore (db.assign key value) := by
  intro k v he
  unfold Store.assign at he
  split_ifs at he with hkk
  · obtain rfl := Option.some.inj he
    exact ⟨hkk ▸ hk,hv⟩
  · exact h k v he

theorem TokenStore.append {db : Store} (h : TokenStore db) {key value : CString}
    (hk : Token key) (hv : Token value) : TokenStore (db.append key value) := by
  refine h.assign hk (Token.append ?_ hv)
  cases hd : db key with
  | none => simp
  | some old => exact (h key old hd).2.2

theorem TokenStore.apply {db : Store} (h : TokenStore db) (op : CString) {key value : CString}
    (hk : Token key) (hv : Token value) : TokenStore (db.apply op key value) := by
  unfold Store.apply
  split_ifs
  · exact h.assign hk hv
  · exact h.append hk hv
  · exact h

/-- Whatever the popped command is, the store keeps tokens only. -/
theorem TokenStore.execute {db : Store} (h : TokenStore db) (cmd : CString) :
    TokenStore (db.execute cmd) := by
  unfold Store.execute
  split
  · next op key value hp => exact h.apply op (parse_tokens hp).1 (parse_tokens hp).2
  · exact h

theorem Store.append_empty {db : Store} {key : CString} (h : db key ≠ none) :
    db.append key [] = db := by
  obtain ⟨old,ho⟩ := Option.ne_none_iff_exists'.mp h
  funext k
  by_cases hk : k = key
  · subst hk
    simp [Store.append,Store.assign,ho]
  · simp [Store.append,Store.assign,hk]

/-- The request applied to the map itself. -/
def Store.direct (db : Store) (request : PutAppendRequest) : Store :=
  db.apply request.op request.key request.value

def Store.directAll (db : Store) (requests : List PutAppendRequest) : Store :=
  requests.foldl Store.direct db

/-- The requests whose command means the same to the parser: key and value are tokens,
or the empty string is appended to a key that is already there. -/
def Encodable (db : Store) (request : PutAppendRequest) : Prop :=
  Token request.key ∧ Token request.value ∨
    request.op = opAppend ∧ request.value = [] ∧ db request.key ≠ none

/-- Every request is encodable when its turn comes. -/
def AllEncodable : Store → List PutAppendRequest → Prop
  | _, [] => True
  | db, request::requests => Encodable db request ∧ AllEncodable (db.direct request) requests

instance (db : Store) (request : PutAppendRequest) : Decidable (Encodable db request) :=
  inferInstanceAs (Decidable (_ ∨ _))

instance AllEncodable.decide (db : Store) (requests : List PutAppendRequest) :
    Decidable (AllEncodable db requests) :=
  match requests with
  | [] => .isTrue trivial
  | request::rest =>
    @instDecidableAnd _ _ inferInstance (AllEncodable.decide (db.direct request) rest)

def Accepted (request : PutAppendRequest) : Prop :=
  request.op = opPut ∨ request.op = opAppend

instance (request : PutAppendRequest) : Decidable (Accepted request) :=
  inferInstanceAs (Decidable (_ ∨ _))

theorem Accepted.token {request : PutAppendRequest} (h : Accepted request) :
    Token request.op := by
  rcases h with h | h <;> rw [h]
  · exact opPut_token
  · exact opAppend_token

theorem Store.execute_command {db : Store} (hdb : TokenStore db) {request : PutAppendRequest}
    (ho : Accepted request) (he : Encodable db request) :
    db.execute request.command = db.direct request := by
  rcases he with ⟨hk,hv⟩ | ⟨hop,hv,hd⟩
  · rw [Store.execute,PutAppendRequest.command,parse_command ho.token hk hv]
    rfl
  · obtain ⟨old,hold⟩ := Option.ne_none_iff_exists'.mp hd
    have hk : Token request.key := (hdb _ _ hold).1
    have hne : ¬ request.op = opPut := by rw [hop]; decide
    rw [Store.execute,PutAppendRequest.command,hv,parse_command_empty ho.token hk,
      Store.direct,Store.apply,if_neg hne,if_pos hop,hv,Store.append_empty hd]

/-- The store after the direct request holds its key, which the parser only writes when
it is a token. -/
theorem encodable_of_execute {db : Store} (hdb : TokenStore db) {request : PutAppendRequest}
    (ho : Accepted request) (he : db.execute request.command = db.direct request) :
    Encodable db request := by
  have hts : TokenStore (db.direct request) := he ▸ hdb.execute request.command
  rcases ho with hop | hop
  · have hval : db.direct request request.key = some request.value := by
      simp [Store.direct,Store.apply,hop,Store.assign]
    exact .inl (hts _ _ hval)
  · have hne : ¬ opAppend = opPut := by decide
    have hval : db.direct request request.key =
        some ((db request.key).getD []++request.value) := by
      simp [Store.direct,Store.apply,hop,hne,Store.append,Store.assign]
    obtain ⟨hk,hv⟩ := hts _ _ hval
    by_cases hempty : request.value = []
    · refine .inr ⟨hop,hempty,?_⟩
      intro hnone
      rw [hnone,hempty] at hv
      exact hv.1 rfl
    · exact .inl ⟨hk,hempty,fun c hc => hv.2 c (List.mem_append_right _ hc)⟩

/-- Encoder and parser agree after every request of the sequence exactly when each
request is encodable when its turn comes. -/
theorem executeAll_agrees_iff {db : Store} (hdb : TokenStore db)
    (requests : List PutAppendRequest) (ho : ∀ request ∈ requests, Accepted request) :
    (∀ first, first <+: requests →
      db.executeAll (first.map PutAppendRequest.command) = db.directAll first) ↔
    AllEncodable db requests := by
  induction requests generalizing db with
  | nil => simp [AllEncodable,Store.executeAll,Store.directAll]
  | cons request rest ih =>
    have hreq := ho request (by simp)
    have hrest : ∀ r ∈ rest, Accepted r := fun r hr => ho r (by simp [hr])
    have hstep : TokenStore (db.execute request.command) := hdb.execute _
    constructor
    · intro h
      have hhead : db.execute request.command = db.direct request := by
        simpa [Store.executeAll,Store.directAll] using h [request] (by simp)
      refine ⟨encodable_of_execute hdb hreq hhead,?_⟩
      rw [← ih (hhead ▸ hstep) hrest]
      intro first hfirst
      have htail := h (request::first) (List.prefix_cons_inj request |>.mpr hfirst)
      simpa [Store.executeAll,Store.directAll,hhead] using htail
    · rintro ⟨he,htail⟩ first hfirst
      have hhead := Store.execute_command hdb hreq he
      cases first with
      | nil => rfl
      | cons r first =>
        obtain ⟨rfl,hpre⟩ := List.cons_prefix_cons.mp hfirst
        have hall := (ih (hhead ▸ hstep) hrest).mpr htail first hpre
        simpa [Store.executeAll,Store.directAll,hhead] using hall

/-- The commands of a sequence of accepted requests rebuild the map that the requests
describe exactly when each is encodable when its turn comes. -/
theorem encoding_faithful_iff (requests : List PutAppendRequest)
    (ho : ∀ request ∈ requests, Accepted request) :
    (∀ first, first <+: requests →
      Store.initial.executeAll (first.map PutAppendRequest.command) =
        Store.initial.directAll first) ↔
    AllEncodable Store.initial requests :=
  executeAll_agrees_iff TokenStore.initial requests ho

theorem encoding_faithful_hello :
    (∀ first, first <+: [⟨['k'],['v'],opPut⟩,⟨['k'],[],opAppend⟩] →
      Store.initial.executeAll (first.map PutAppendRequest.command) =
        Store.initial.directAll first) ↔
    AllEncodable Store.initial [⟨['k'],['v'],opPut⟩,⟨['k'],[],opAppend⟩] :=
  encoding_faithful_iff [⟨['k'],['v'],opPut⟩,⟨['k'],[],opAppend⟩] (by decide)

/-- `put k "a b"` leaves `k` at `a`. -/
theorem encoding_loses_blank :
    ¬ ∀ requests : List PutAppendRequest, (∀ request ∈ requests, Accepted request) →
      Store.initial.executeAll (requests.map PutAppendRequest.command) =
        Store.initial.directAll requests := by
  intro h
  have hk := congrFun (h [⟨['k'],['a',' ','b'],opPut⟩] (by simp [Accepted])) ['k']
  have hexec : Store.initial.executeAll
      ([⟨['k'],['a',' ','b'],opPut⟩].map PutAppendRequest.command) ['k'] = some ['a'] := by
    decide
  have hdirect : Store.initial.directAll [⟨['k'],['a',' ','b'],opPut⟩] ['k'] =
      some ['a',' ','b'] := by
    decide
  rw [hexec,hdirect] at hk
  exact absurd hk (by decide)

end SRaftMuduo
