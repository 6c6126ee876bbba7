import SRaftMuduo.Store.Command

namespace SRaftMuduo

structure GetRequest where
  key : CString
  clerkId : Int
  cmdIndex : Int

/-- The response of a call that failed is the one it was given to fill in. -/
def GetResponse.empty : GetResponse := ⟨false,[],[]⟩

/-- What a call of `Get` at a server comes to: its response, or a status that is not OK. -/
abbrev GetStub := CString → GetRequest → Option GetResponse

/-- `KvserverClient::Get`: a bad status is only logged. -/
def KvserverClient.Get (stub : GetStub) (name : CString) (request : GetRequest) : GetResponse :=
  (stub name request).getD .empty

/-- `servers` lists the names in `servers_` in the order of iteration. -/
structure Skvclient where
  servers : List CString
  leaderName : CString
  deriving DecidableEq

namespace Skvclient

/-- An error is only logged. -/
def OnGetResponse (response : GetResponse) : CString := response.value

def getRequest (key : CString) : GetRequest := ⟨key,1,1⟩

/-- The loop over `servers_`, up to the first response that does not refuse. -/
def scan (client : Skvclient) (stub : GetStub) (request : GetRequest) : Option CString :=
  client.servers.find? fun name => !(KvserverClient.Get stub name request).wrongLeader

def Get (client : Skvclient) (stub : GetStub) (key : CString) : CString × Skvclient :=
  let request := getRequest key
  let response := KvserverClient.Get stub client.leaderName request
  if client.leaderName ∈ client.servers ∧ response.wrongLeader = false then
    (OnGetResponse response,client)
  else
    match client.scan stub request with
    | some name =>
      (OnGetResponse (KvserverClient.Get stub name request),{client with leaderName := name})
    | none => ([],client)

/-- The server answers, and as the leader. -/
def AnswersAsLeader (stub : GetStub) (key name : CString) : Prop :=
  ∃ response, stub name (getRequest key) = some response ∧ response.wrongLeader = false

/-- The read finds `value`, and a new `leaderName` is a server that answered as leader. -/
structure Survives (client : Skvclient) (stub : GetStub) (key value : CString) : Prop where
  value : (client.Get stub key).1 = value
  leaderName : (client.Get stub key).2.leaderName ≠ client.leaderName →
    AnswersAsLeader stub key (client.Get stub key).2.leaderName

/-- The call at the server fails. -/
def Fails (stub : GetStub) (key name : CString) : Prop := stub name (getRequest key) = none

/-- A cached server that fails stands for the empty value; otherwise the cache or the order of
the servers brings the call to the leader before any server that fails. -/
def Reaches (client : Skvclient) (stub : GetStub) (key leader value : CString) : Prop :=
  if client.leaderName ∈ client.servers ∧ stub client.leaderName (getRequest key) = none then
    value = []
  else client.leaderName = leader ∨
    ∀ name ∈ client.servers.takeWhile (· ≠ leader), ¬Fails stub key name

/-- One server answers as leader, with the value; all others that answer refuse. -/
structure OneLeader (client : Skvclient) (stub : GetStub) (key leader value : CString) : Prop where
  mem : leader ∈ client.servers
  answer : stub leader (getRequest key) = some ⟨false,errNone,value⟩
  others : ∀ name ∈ client.servers, name ≠ leader → ∀ response,
    stub name (getRequest key) = some response → response.wrongLeader = true

variable {client : Skvclient} {stub : GetStub} {key leader value name : CString}

theorem Get_of_fails (h : Fails stub key name) :
    KvserverClient.Get stub name (getRequest key) = .empty := by
  rw [KvserverClient.Get,h,Option.getD_none]

theorem Get_of_answer {response : GetResponse} (h : stub name (getRequest key) = some response) :
    KvserverClient.Get stub name (getRequest key) = response := by
  rw [KvserverClient.Get,h,Option.getD_some]

theorem not_leader_of_fails (h : Fails stub key name) : ¬AnswersAsLeader stub key name := by
  intro ha
  obtain ⟨response,hr,-⟩ := ha
  rw [h] at hr
  cases hr

/-- The loop stops at the leader, or at a server before it that fails. -/
theorem scan_cases (h : OneLeader client stub key leader value) :
    ((∀ name ∈ client.servers.takeWhile (· ≠ leader), ¬Fails stub key name) ∧
      client.scan stub (getRequest key) = some leader) ∨
    ((∃ name ∈ client.servers.takeWhile (· ≠ leader), Fails stub key name) ∧
      ∃ name, client.scan stub (getRequest key) = some name ∧ Fails stub key name) := by
  obtain ⟨servers,leaderName⟩ := client
  obtain ⟨hmem,ha,hothers⟩ := h
  unfold scan
  dsimp only at hmem hothers ⊢
  induction servers with
  | nil => cases hmem
  | cons name names ih =>
    by_cases hn : name = leader
    · left
      have hl : (KvserverClient.Get stub name (getRequest key)).wrongLeader = false := by
        rw [hn,Get_of_answer ha]
      simp [hn ▸ hl,hn]
    · rw [List.takeWhile_cons_of_pos (by simpa using hn),List.find?_cons]
      cases hr : stub name (getRequest key) with
      | none =>
        right
        refine ⟨⟨name,List.mem_cons_self,hr⟩,name,?_,hr⟩
        rw [Get_of_fails hr]
        rfl
      | some response =>
        have hrefuses : response.wrongLeader = true :=
          hothers name List.mem_cons_self hn response hr
        rw [Get_of_answer hr,hrefuses]
        have hmem' : leader ∈ names := by
          cases List.mem_cons.mp hmem with
          | inl he => exact absurd he.symm hn
          | inr hm => exact hm
        have hanswers : ¬Fails stub key name := by
          intro hf
          rw [hf] at hr
          cases hr
        have hrec := ih hmem' fun s hs => hothers s (List.mem_cons_of_mem _ hs)
        cases hrec with
        | inl hfound =>
          refine .inl ⟨?_,hfound.2⟩
          intro s hs
          cases List.mem_cons.mp hs with
          | inl he => exact he ▸ hanswers
          | inr hm => exact hfound.1 s hm
        | inr hfails =>
          obtain ⟨⟨s,hs,hf⟩,hfirst⟩ := hfails
          exact .inr ⟨⟨s,List.mem_cons_of_mem _ hs,hf⟩,hfirst⟩

/-- The cached server is asked first, and a call that fails counts as its answer. -/
theorem Get_cached (stub : GetStub) (key : CString)
    (hc : client.leaderName ∈ client.servers)
    (hr : (KvserverClient.Get stub client.leaderName (getRequest key)).wrongLeader = false) :
    client.Get stub key =
      ((KvserverClient.Get stub client.leaderName (getRequest key)).value,client) := by
  rw [Get,if_pos ⟨hc,hr⟩]
  rfl

theorem Get_scanned (hc : ¬(client.leaderName ∈ client.servers ∧
      (KvserverClient.Get stub client.leaderName (getRequest key)).wrongLeader = false))
    (hs : client.scan stub (getRequest key) = some name) :
    client.Get stub key = ((KvserverClient.Get stub name (getRequest key)).value,
      {client with leaderName := name}) := by
  rw [Get,if_neg hc,hs]
  rfl

/-- A cached server that is down answers the read with the empty value. -/
theorem survives_of_down (hc : client.leaderName ∈ client.servers)
    (hf : Fails stub key client.leaderName) :
    client.Survives stub key value ↔ value = [] := by
  have hget := Get_cached stub key hc (by rw [Get_of_fails hf]; rfl)
  rw [Get_of_fails hf] at hget
  constructor
  · intro hs
    rw [← hs.value,hget]
    rfl
  · intro hv
    refine ⟨?_,fun hne => absurd (by rw [hget]) hne⟩
    rw [hget,hv]
    rfl

theorem OneLeader.response (h : OneLeader client stub key leader value) :
    KvserverClient.Get stub leader (getRequest key) = ⟨false,errNone,value⟩ :=
  Get_of_answer h.answer

theorem survives_of_cached (h : OneLeader client stub key leader value)
    (hl : client.leaderName = leader) : client.Survives stub key value := by
  subst hl
  have hget := Get_cached stub key h.mem (by rw [h.response])
  rw [h.response] at hget
  exact ⟨by rw [hget],fun hne => absurd (by rw [hget]) hne⟩

/-- A cached server that answers and is not the leader refuses. -/
theorem OneLeader.refuses (h : OneLeader client stub key leader value)
    (hl : client.leaderName ≠ leader)
    (hup : ¬(client.leaderName ∈ client.servers ∧ Fails stub key client.leaderName)) :
    ¬(client.leaderName ∈ client.servers ∧
      (KvserverClient.Get stub client.leaderName (getRequest key)).wrongLeader = false) := by
  intro hc
  cases hr : stub client.leaderName (getRequest key) with
  | none => exact hup ⟨hc.1,hr⟩
  | some response =>
    have hrefuses := h.others _ hc.1 hl response hr
    rw [Get_of_answer hr,hrefuses] at hc
    cases hc.2

/-- Where the loop decides, the read survives when no server before the leader is down. -/
theorem survives_scanned (h : OneLeader client stub key leader value)
    (hc : ¬(client.leaderName ∈ client.servers ∧
      (KvserverClient.Get stub client.leaderName (getRequest key)).wrongLeader = false)) :
    client.Survives stub key value ↔
      ∀ name ∈ client.servers.takeWhile (· ≠ leader), ¬Fails stub key name := by
  cases scan_cases h with
  | inl hfound =>
    have hget := Get_scanned hc hfound.2
    rw [h.response] at hget
    constructor
    · intro _
      exact hfound.1
    · intro _
      refine ⟨by rw [hget],fun _ => ?_⟩
      rw [hget]
      exact ⟨_,h.answer,rfl⟩
  | inr hfails =>
    obtain ⟨⟨before,hbefore,hf⟩,name,hfirst,hname⟩ := hfails
    have hget := Get_scanned hc hfirst
    constructor
    · intro hs
      have hnew := hs.leaderName
      rw [hget] at hnew
      have hne : name ≠ client.leaderName := by
        intro he
        subst he
        exact hc ⟨List.mem_of_find?_eq_some hfirst,by rw [Get_of_fails hname]; rfl⟩
      exact absurd (hnew hne) (not_leader_of_fails hname)
    · intro hall
      exact absurd hf (hall before hbefore)

/-- With one server that answers as leader, a read finds its value and takes no other server
for the leader exactly when it reaches that server before any server that fails. -/
theorem Get_survives_iff (h : OneLeader client stub key leader value) :
    client.Survives stub key value ↔ client.Reaches stub key leader value := by
  unfold Reaches
  by_cases hdown : client.leaderName ∈ client.servers ∧
      stub client.leaderName (getRequest key) = none
  · rw [if_pos hdown]
    exact survives_of_down hdown.1 hdown.2
  · rw [if_neg hdown]
    by_cases hl : client.leaderName = leader
    · exact ⟨fun _ => .inl hl,fun _ => survives_of_cached h hl⟩
    · rw [survives_scanned h (h.refuses hl hdown)]
      constructor
      · exact .inr
      · intro hr
        cases hr with
        | inl he => exact absurd he hl
        | inr hall => exact hall

/-- The first server refuses or fails, the second answers as the leader. -/
def twoServers (first : Option GetResponse) : GetStub := fun name _ =>
  if name = ['a'] then first else some ⟨false,errNone,['x']⟩

theorem twoServers_oneLeader (first : Option GetResponse)
    (h : ∀ response, first = some response → response.wrongLeader = true) (key : CString) :
    OneLeader ⟨[['a'],['b']],[]⟩ (twoServers first) key ['b'] ['x'] where
  mem := by simp
  answer := rfl
  others := by
    intro name hm hn response hr
    have ha : name = ['a'] := by simpa [hn] using hm
    rw [ha] at hr
    exact h response hr

theorem Get_survives_second :
    Survives ⟨[['a'],['b']],[]⟩ (twoServers (some ⟨true,errWrongLeader,valueError⟩))
      ['k'] ['x'] := by
  have h := twoServers_oneLeader (some ⟨true,errWrongLeader,valueError⟩)
    (by rintro response ⟨⟩; rfl) ['k']
  refine (Get_survives_iff h).mpr ?_
  simp [Reaches,Fails,twoServers]

/-- The first server is down: its empty response is taken for the leader's. -/
theorem Get_poisoned : OneLeader ⟨[['a'],['b']],[]⟩ (twoServers none) ['k'] ['b'] ['x'] ∧
    Get ⟨[['a'],['b']],[]⟩ (twoServers none) ['k'] = ([],⟨[['a'],['b']],['a']⟩) :=
  ⟨twoServers_oneLeader none (by simp) ['k'],by decide⟩

end Skvclient

end SRaftMuduo
