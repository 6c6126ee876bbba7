import SRaftMuduo.Raft.Effects
import Mathlib.Data.List.Basic

namespace SRaftMuduo

theorem SRaft.getLogByIndex_congr {s t : SRaft} (h : s.logs = t.logs) (index : Nat) :
    s.getLogByIndex index = t.getLogByIndex index := by
  unfold getLogByIndex baseLogIndex
  rw [h]

namespace Node

/-- From `n` to `m` the lookups `more` were made, each of the next index, and the
non-empty data found was pushed. -/
structure Applies (n m : Node) (more : List (Int × CString)) : Prop where
  applied : m.applied = n.applied++more
  pushes : m.pushes = n.pushes++more.filter (fun p => p.2 ≠ [])
  channel : ∀ que, n.channel = some que →
    m.channel = some (que++(more.filter (fun p => p.2 ≠ [])).map Prod.snd)
  indices : more.map Prod.fst =
    (List.range more.length).map (fun k : Nat => n.raft.lastApplied+1+(k : Int))
  last : m.raft.lastApplied = n.raft.lastApplied+more.length
  data : ∀ p ∈ more, p.2 = (m.raft.getLogByIndex (toU64 p.1)).data

theorem applyOne_applies {n : Node} (hch : n.channel ≠ none) :
    ∃ more, more.length = 1 ∧ Applies n n.applyOne more := by
  obtain ⟨hr,-⟩ := applyOne_frame n
  obtain ⟨que,hque⟩ := Option.ne_none_iff_exists'.mp hch
  have hlog : ∀ index, n.applyOne.raft.getLogByIndex index = n.raft.getLogByIndex index :=
    SRaft.getLogByIndex_congr (by rw [hr])
  generalize hcmd : (n.raft.getLogByIndex (toU64 (n.raft.lastApplied+1))).data = cmd
  have hone : n.applyOne.applied = n.applied++[(n.raft.lastApplied+1,cmd)] ∧
      n.applyOne.pushes = n.pushes++(if cmd = [] then [] else [(n.raft.lastApplied+1,cmd)]) ∧
      n.applyOne.channel = some (que++if cmd = [] then [] else [cmd]) := by
    simp only [applyOne,pushData,hcmd,hque]
    by_cases he : cmd = [] <;> simp [he]
  obtain ⟨ha,hp,hc⟩ := hone
  refine ⟨[(n.raft.lastApplied+1,cmd)],rfl,ha,?_,?_,by simp,by rw [hr]; rfl,?_⟩
  · rw [hp]
    by_cases he : cmd = [] <;> simp [he]
  · intro que' hque'
    obtain rfl := Option.some.inj (hque.symm.trans hque')
    rw [hc]
    by_cases he : cmd = [] <;> simp [he]
  · intro p hp
    obtain rfl := List.mem_singleton.mp hp
    rw [hlog]
    exact hcmd.symm

theorem Applies.trans {n m l : Node} {a b : List (Int × CString)} (h : Applies n m a)
    (k : Applies m l b) (hl : l.raft.logs = m.raft.logs) : Applies n l (a++b) := by
  refine ⟨?applied,?pushes,?channel,?indices,?last,?data⟩
  case applied => rw [k.applied,h.applied,List.append_assoc]
  case pushes => rw [k.pushes,h.pushes,List.filter_append,List.append_assoc]
  case channel =>
    intro que hque
    rw [k.channel _ (h.channel que hque),List.filter_append,List.map_append,
      List.append_assoc]
  case indices =>
    rw [List.map_append,h.indices,k.indices,h.last,List.length_append,List.range_add,
      List.map_append,List.map_map]
    congr 1
    refine List.map_congr_left (fun x _ => ?_)
    simp only [Function.comp_apply]
    push_cast
    omega
  case last =>
    rw [k.last,h.last,List.length_append]
    push_cast
    omega
  case data =>
    intro p hp
    rcases List.mem_append.mp hp with hp | hp
    · rw [SRaft.getLogByIndex_congr hl]
      exact h.data p hp
    · exact k.data p hp

/-- No lookup is made. -/
theorem Applies.same {n m : Node} (ha : m.applied = n.applied) (hp : m.pushes = n.pushes)
    (hc : m.channel = n.channel) (hl : m.raft.lastApplied = n.raft.lastApplied) :
    Applies n m [] := by
  refine ⟨by simp [ha],by simp [hp],?_,by simp,by simp [hl],by simp⟩
  intro que hque
  simp [hc,hque]

theorem Applies.index {n m : Node} {more : List (Int × CString)} (h : Applies n m more)
    {p : Int × CString} (hp : p ∈ more) :
    n.raft.lastApplied < p.1 ∧ p.1 ≤ m.raft.lastApplied := by
  have hlast := h.last
  obtain ⟨x,hx,he⟩ := List.mem_map.mp (h.indices ▸ List.mem_map_of_mem (f := Prod.fst) hp)
  have hlt := List.mem_range.mp hx
  omega

theorem Applies.channel_ne {n m : Node} {more : List (Int × CString)} (h : Applies n m more)
    (hch : n.channel ≠ none) : m.channel ≠ none := by
  obtain ⟨que,hque⟩ := Option.ne_none_iff_exists'.mp hch
  rw [h.channel que hque]
  simp

theorem applyLoop_applies (i : Nat) {n : Node} (hch : n.channel ≠ none) :
    ∃ more, more.length = i ∧ Applies n (applyLoop i n) more := by
  induction i generalizing n with
  | zero => exact ⟨[],rfl,.same rfl rfl rfl rfl⟩
  | succ i ih =>
    obtain ⟨a,ha,h1⟩ := applyOne_applies hch
    obtain ⟨b,hb,h2⟩ := ih (h1.channel_ne hch)
    have hl : (applyLoop i n.applyOne).raft.logs = n.applyOne.raft.logs := by
      rw [(applyLoop_frame i n.applyOne).1]
    exact ⟨a++b,by simp [ha,hb]; omega,h1.trans h2 hl⟩

/-- `DoApply` looks up every index from `lastApplied_+1` to `commitIndex_`, in order. -/
theorem doApply_applies {n : Node} (hch : n.channel ≠ none) :
    ∃ more, more.length = (n.raft.commitIndex-n.raft.lastApplied).toNat ∧
      Applies n n.doApply more :=
  applyLoop_applies _ hch

/-- Nothing of the pipeline changes. -/
def Still (n m : Node) : Prop :=
  m.applied = n.applied ∧ m.pushes = n.pushes ∧ m.channel = n.channel ∧
    m.raft.lastApplied = n.raft.lastApplied ∧ m.raft.commitIndex = n.raft.commitIndex

theorem Still.refl (n : Node) : Still n n := ⟨rfl,rfl,rfl,rfl,rfl⟩

theorem Still.trans {n m l : Node} (h : Still n m) (k : Still m l) : Still n l := by
  obtain ⟨h1,h2,h3,h4,h5⟩ := h
  obtain ⟨k1,k2,k3,k4,k5⟩ := k
  exact ⟨k1.trans h1,k2.trans h2,k3.trans h3,k4.trans h4,k5.trans h5⟩

/-- `commitIndex_` gets the value `k`, and `DoApply` runs. -/
def Commits (n m : Node) (k : Int) : Prop :=
  ∃ l : Node, Still n l ∧ m = doApply {l with raft := {l.raft with commitIndex := k}}

theorem Commits.commitIndex {n m : Node} {k : Int} (h : Commits n m k) :
    m.raft.commitIndex = k := by
  obtain ⟨l,-,rfl⟩ := h
  simp

theorem Commits.lastApplied {n m : Node} {k : Int} (h : Commits n m k) :
    m.raft.lastApplied = max n.raft.lastApplied k := by
  obtain ⟨l,⟨-,-,-,hl,-⟩,rfl⟩ := h
  simp [hl]

theorem Commits.applies {n m : Node} {k : Int} (h : Commits n m k)
    (hch : n.channel ≠ none) : ∃ more, Applies n m more := by
  obtain ⟨l,⟨ha,hp,hc,hl,-⟩,rfl⟩ := h
  obtain ⟨more,-,h⟩ := doApply_applies
    (n := {l with raft := {l.raft with commitIndex := k}}) (by rwa [← hc] at hch)
  exact ⟨more,by rw [h.applied,ha],by rw [h.pushes,hp],
    fun que hque => h.channel que (by rw [hc,hque]),by rw [h.indices,hl],
    by rw [h.last,hl],h.data⟩

theorem doAppendEntries_still (isHeartbeat : Bool) {n : Node}
    (h : isHeartbeat = true ∨ n.raft.peers ≠ []) :
    Still n (n.doAppendEntries isHeartbeat) := by
  cases isHeartbeat with
  | true =>
    rw [doAppendEntries_heartbeat]
    exact .refl n
  | false =>
    rw [doAppendEntries_peers n (by simpa using h)]
    exact .refl n

theorem doElection_still (r : Readings) (n : Node) : Still n (n.doElection r) := by
  unfold doElection
  dsimp only
  split_ifs <;> exact .refl n

theorem onTimer_still (r : Readings) (n : Node) : Still n (n.onTimer r) := by
  rcases onTimer_cases r n with ⟨-,he⟩ | ⟨-,-,due,he⟩ | ⟨-,-,he⟩ | ⟨-,-,due,he⟩ <;> rw [he]
  · exact .refl n
  · exact (Still.refl n).trans (doAppendEntries_still true (.inl rfl))
  · rcases timerFail_cases r (n.doElection r) with he' | ⟨-,due,he'⟩ <;> rw [he']
    · exact doElection_still r n
    · exact doElection_still r n
  · exact .refl n

/-- `DoLog` commits only on a node without peers, and there its own entry. -/
theorem doLog_commits (cmd : CString) (n : Node) :
    Still n (n.doLog cmd).1 ∨
    n.raft.running = true ∧ n.raft.state = .leader ∧ n.raft.peers = [] ∧
      n.raft.lastLogIndex+1 < 2^63 ∧ (n.doLog cmd).1 = n.logEntry cmd ∧
      Commits n (n.doLog cmd).1 (n.raft.lastLogIndex+1) := by
  rcases doLog_cases cmd n with ⟨-,he⟩ | ⟨-,he⟩ | ⟨hrun,hs,hb,he⟩
  · exact .inl (by rw [he]; exact .refl n)
  · exact .inl (by rw [he]; exact .refl n)
  · by_cases hp : n.raft.peers = []
    · refine .inr ⟨hrun,hs,hp,hb,he,?_⟩
      have hlast : SRaft.lastLogIndex {n.raft with
          logs := n.raft.logs++[newEntry cmd n.raft]} = n.raft.lastLogIndex+1 := by
        simp [SRaft.lastLogIndex,newEntry]
      let m : Node := dump {n with raft := {n.raft with
        logs := n.raft.logs++[newEntry cmd n.raft]}}
      have halone : n.logEntry cmd = m.commitAlone := doAppendEntries_alone m hp
      exact ⟨m,.refl n,by rw [he,halone,← hlast]; rfl⟩
    · left
      rw [he]
      exact (Still.refl n).trans (doAppendEntries_still false (.inr hp))

theorem onAppendEntriesRequest_still (request : AppendEntriesRequest) (r : Readings)
    (n : Node) : Still n (n.onAppendEntriesRequest request r).1 := by
  rcases onAppendEntriesRequest_cases request r n with
    ⟨-,he⟩ | ⟨-,-,-,due,he⟩ | ⟨-,-,-,-,logs,-,he⟩ | ⟨-,-,-,-,he⟩ <;> rw [he]
  all_goals exact .refl n

theorem onRequestVoteRequest_still (request : RequestVoteRequest) (n : Node) :
    Still n (n.onRequestVoteRequest request).1 := by
  rcases onRequestVoteRequest_cases request n with
    ⟨-,he,-⟩ | ⟨-,-,-,he⟩ | ⟨-,-,-,-,he⟩ <;> rw [he]
  all_goals exact .refl n

theorem onRequestVoteResponse_still (response : RequestVoteResponse) (n : Node) :
    Still n (n.onRequestVoteResponse response) := by
  rcases onRequestVoteResponse_cases response n with
    ⟨-,he⟩ | ⟨-,-,he⟩ | ⟨-,-,-,he⟩ <;> rw [he]
  all_goals exact .refl n

theorem run_still (r : Readings) (n : Node) : Still n (n.run r) := by
  unfold run load
  split <;> exact .refl n

theorem touchPeer_still (name : CString) (n : Node) : Still n (n.touchPeer name) := by
  obtain ⟨peers,h⟩ := touchPeer_raft name n
  exact ⟨rfl,rfl,rfl,by rw [h],by rw [h]⟩

theorem checkTerm_still (term : Nat) (n : Node) : Still n (n.checkTerm term) := by
  unfold checkTerm
  split_ifs <;> exact .refl n

/-- A response commits only an index above `commitIndex_`, on a leader. -/
theorem onAppendEntriesReponse_commits (response : AppendEntriesResponse)
    (isHeartbeat : Bool) (n : Node) :
    Still n (n.onAppendEntriesReponse response isHeartbeat) ∨
    n.raft.state = .leader ∧ n.raft.commitIndex < response.lastLogIndex ∧
      Commits n (n.onAppendEntriesReponse response isHeartbeat) response.lastLogIndex := by
  have hc := (touchPeer_still response.name n).trans (checkTerm_still response.term _)
  rcases onAppendEntriesReponse_cases response isHeartbeat n with ⟨-,he⟩ | ⟨hs,he | ⟨-,he⟩⟩ <;>
    rw [he]
  · exact .inl (touchPeer_still _ n)
  · exact .inl hc
  · generalize (n.touchPeer response.name).checkTerm response.term = m at hc
    rcases countResponse_cases response m with he | he | ⟨peer,mi,-,l,hl,he⟩
    · exact .inl (by rwa [he])
    · exact .inl (by rw [he]; exact hc)
    · have hset : Still n l := by
        rw [hl]
        exact hc
      rcases he with he | he | ⟨-,hlt,-,-,he⟩
      · exact .inl (by rwa [he])
      · exact .inl (by rw [he]; exact hset)
      · refine .inr ⟨hs,hc.2.2.2.2 ▸ hlt,?_⟩
        rw [he]
        exact ⟨l,hset,rfl⟩

end Node
end SRaftMuduo
