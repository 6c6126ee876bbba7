import SRaftMuduo.Store.Encoding

namespace SRaftMuduo

/-- The words of a string, without the whitespace around them. -/
def words (ss : CString) : List CString := (ss.splitOnP isSpace).filter (fun word => word ≠ [])

/-- The first three words of a command: what to do, with which key and which value. -/
def operation (cmd : CString) : Option (CString × CString × CString) :=
  match words cmd with
  | op::key::value::_ => some (op,key,value)
  | _ => none

/-- What an operation makes of the value of `key`: a `put` gives it another one, an `append`
joins a string to it. -/
def assigned (key : CString) (old : Option CString) :
    CString × CString × CString → Option CString
  | (op,k,value) =>
    if k ≠ key then old
    else if op = "put".toList then some value
    else if op = "append".toList then some (old.getD []++value)
    else old

/-- The value of a key after the given operations on `{hello: world}`. -/
def valueOf (key : CString) (ops : List (CString × CString × CString)) : Option CString :=
  ops.foldl (assigned key) (if key = "hello".toList then some "world".toList else none)

variable {ss token rest cmd key : CString} {c : Char}

theorem words_space (hc : isSpace c = true) : words (c::ss) = words ss := by
  rw [words,List.splitOnP_cons_eq_if_modifyHead,if_pos hc]
  exact List.filter_cons_of_neg (by simp)

theorem words_dropWhile (ss : CString) : words (ss.dropWhile isSpace) = words ss := by
  induction ss with
  | nil => rfl
  | cons c ss ih =>
    by_cases hc : isSpace c = true
    · rw [List.dropWhile_cons_of_pos hc,ih,words_space hc]
    · rw [List.dropWhile_cons_of_neg hc]

/-- A token in front of the end or of whitespace is the first word. -/
theorem words_token (ht : Token token)
    (hr : rest = [] ∨ ∃ c cs, rest = c::cs ∧ isSpace c = true) :
    words (token++rest) = token::words rest := by
  obtain ⟨hne,hall⟩ := ht
  rcases hr with rfl | ⟨c,cs,rfl,hc⟩
  · rw [List.append_nil,words,List.splitOnP_eq_singleton hall]
    exact List.filter_cons_of_pos (by simpa using hne)
  · rw [words_space hc,words,List.splitOnP_append_cons_of_forall_mem hall c hc]
    exact List.filter_cons_of_pos (by simpa using hne)

/-- `ss >> token` takes the words one by one. -/
theorem words_extract (ss : CString) :
    words ss = ((extract ss).map fun r => r.1::words r.2).getD [] := by
  rw [← words_dropWhile]
  cases he : extract ss with
  | none =>
    unfold extract at he
    dsimp only at he
    split_ifs at he with hnil
    rw [hnil]
    rfl
  | some r =>
    obtain ⟨token,rest⟩ := r
    have ht := extract_token he
    unfold extract at he
    dsimp only at he
    split_ifs at he
    obtain ⟨htoken,hrest⟩ := Prod.mk.inj (Option.some.inj he)
    have hsplit := List.takeWhile_append_dropWhile (p := fun c => !isSpace c)
      (l := ss.dropWhile isSpace)
    rw [htoken,hrest] at hsplit
    rw [← hsplit]
    refine words_token ht ?_
    cases rest with
    | nil => exact .inl rfl
    | cons c cs =>
      have hhead := List.head?_dropWhile_not (fun c => !isSpace c) (ss.dropWhile isSpace)
      rw [hrest] at hhead
      exact .inr ⟨c,cs,rfl,by simpa using hhead⟩

/-- The command is read by its words. -/
theorem parse_eq (cmd : CString) : parse cmd = operation cmd := by
  unfold parse operation
  rw [words_extract cmd]
  cases ho : extract cmd with
  | none => rfl
  | some op =>
    simp only [Option.bind_some,Option.map_some,Option.getD_some]
    rw [words_extract op.2]
    cases hk : extract op.2 with
    | none => rfl
    | some key =>
      simp only [Option.bind_some,Option.map_some,Option.getD_some]
      rw [words_extract key.2]
      cases hv : extract key.2 with
      | none => rfl
      | some value => rfl

/-- The two assignments, for one key. -/
theorem Store.apply_key (db : Store) (op k value key : CString) :
    db.apply op k value key = assigned key (db key) (op,k,value) := by
  have hput : "put".toList = opPut := by decide
  have happend : "append".toList = opAppend := by decide
  unfold Store.apply assigned
  dsimp only
  rw [hput,happend]
  by_cases hk : k = key
  · subst hk
    rw [if_neg (not_not_intro rfl)]
    split_ifs
    · exact if_pos rfl
    · exact if_pos rfl
    · rfl
  · have hne : key ≠ k := fun h => hk h.symm
    rw [if_pos hk]
    split_ifs
    · exact if_neg hne
    · exact if_neg hne
    · rfl

/-- A command changes the value of a key as its operation says. -/
theorem Store.execute_key (db : Store) (cmd key : CString) :
    db.execute cmd key = (operation cmd).toList.foldl (assigned key) (db key) := by
  unfold Store.execute
  rw [parse_eq]
  cases operation cmd with
  | none => rfl
  | some o => exact db.apply_key o.1 o.2.1 o.2.2 key

/-- The store after some commands, key by key. -/
theorem Store.executeAll_key (db : Store) (cmds : List CString) (key : CString) :
    db.executeAll cmds key = (cmds.filterMap operation).foldl (assigned key) (db key) := by
  induction cmds generalizing db with
  | nil => rfl
  | cons cmd cmds ih =>
    change (db.execute cmd).executeAll cmds key = _
    rw [ih,Store.execute_key]
    cases ho : operation cmd with
    | none => simp [ho]
    | some o => simp [ho]

theorem executeAll_valueOf (cmds : List CString) (key : CString) :
    Store.initial.executeAll cmds key = valueOf key (cmds.filterMap operation) := by
  rw [Store.executeAll_key,valueOf]
  rfl

end SRaftMuduo
