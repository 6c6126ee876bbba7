import SRaftMuduo.Math.Words

namespace SRaftMuduo

/-- `kvDB_` as a finite map; a key that was never written has no value. -/
abbrev Store := CString → Option CString

def opPut : CString := ['p','u','t']
def opAppend : CString := ['a','p','p','e','n','d']

/-- The store a server starts with. -/
def Store.initial : Store := fun key =>
  if key = ['h','e','l','l','o'] then some ['w','o','r','l','d'] else none

/-- `kvDB_[key] = value`. -/
def Store.assign (db : Store) (key value : CString) : Store :=
  fun k => if k = key then some value else db k

/-- `kvDB_[key] += value`; `operator[]` starts a new key at the empty string. -/
def Store.append (db : Store) (key value : CString) : Store :=
  db.assign key ((db key).getD []++value)

/-- `std::isspace` in the classic locale. -/
def isSpace (c : Char) : Bool :=
  c = ' ' || c = '\t' || c = '\n' || c = '\x0b' || c = '\x0c' || c = '\r'

/-- `ss >> token`: the token and the rest of the stream, or failure at its end. -/
def extract (ss : CString) : Option (CString × CString) :=
  let rest := ss.dropWhile isSpace
  if rest = [] then none
  else some (rest.takeWhile (fun c => !isSpace c),rest.dropWhile (fun c => !isSpace c))

/-- `ss>>op && ss>>key && ss>>value`. -/
def parse (cmd : CString) : Option (CString × CString × CString) :=
  (extract cmd).bind fun op =>
    (extract op.2).bind fun key =>
      (extract key.2).map fun value => (op.1,key.1,value.1)

/-- The two assignments of `recieveMsgThread`; any other operation is only logged. -/
def Store.apply (db : Store) (op key value : CString) : Store :=
  if op = opPut then db.assign key value
  else if op = opAppend then db.append key value
  else db

/-- What one turn of `recieveMsgThread` does to `kvDB_` with the command it popped. -/
def Store.execute (db : Store) (cmd : CString) : Store :=
  match parse cmd with
  | some (op,key,value) => db.apply op key value
  | none => db

structure PutAppendRequest where
  key : CString
  value : CString
  op : CString
  deriving DecidableEq

/-- `request->op() + " " + request->key() + " " + request->value()`. -/
def PutAppendRequest.command (request : PutAppendRequest) : CString :=
  request.op++[' ']++request.key++[' ']++request.value

structure PutAppendResponse where
  wrongLeader : Bool
  err : CString
  deriving DecidableEq

structure GetResponse where
  wrongLeader : Bool
  err : CString
  value : CString
  deriving DecidableEq

def errNone : CString := ['n','o','n','e']
def errWrongLeader : CString := ['w','r','o','n','g',' ','l','e','a','d','e','r']
def errWrongKey : CString := ['w','r','o','n','g',' ','k','e','y']
def valueError : CString := ['E','r','r','o','r']

/-- What `Skvserver::get` answers on a leader. -/
def Store.answer (db : Store) (key : CString) : GetResponse :=
  match db key with
  | none => ⟨false,errWrongKey,valueError⟩
  | some value => ⟨false,errNone,value⟩

/-- The store after the given commands, in order. -/
def Store.executeAll (db : Store) (cmds : List CString) : Store := cmds.foldl Store.execute db

end SRaftMuduo
