import SRaftMuduo.Cluster.Contiguity
import SRaftMuduo.Cluster.Wiring
import SRaftMuduo.Raft.Applying
import SRaftMuduo.Store.Operations

namespace SRaftMuduo

open Node (Applies Still Commits)

/-- Between handlers everything committed is applied. A node without peers commits the end
of its log, so its log must not end below `commitIndex_`. -/
structure Synced (cfg : Config) (i : CString) (n : Node) : Prop where
  applied : n.raft.lastApplied = n.raft.commitIndex
  low : -1 ≤ n.raft.commitIndex
  fresh : n.raft.running = false → n.raft.commitIndex = -1 ∧ n.raft.state = .follower
  alone : cfg.peersOf i = [] → n.raft.commitIndex ≤ n.raft.lastLogIndex

namespace Synced

variable {cfg : Config} {i : CString} {n m : Node}

theorem still (h : Synced cfg i n) (hs : Still n m)
    (hfresh : m.raft.running = false → n.raft.running = false ∧ m.raft.state = n.raft.state)
    (hlast : cfg.peersOf i = [] → n.raft.lastLogIndex ≤ m.raft.lastLogIndex) :
    Synced cfg i m := by
  obtain ⟨-,-,-,hl,hc⟩ := hs
  refine ⟨by rw [hl,hc,h.applied],by rw [hc]; exact h.low,?_,?_⟩
  · intro hrun
    obtain ⟨hrun',hstate⟩ := hfresh hrun
    rw [hc,hstate]
    exact h.fresh hrun'
  · intro hp
    rw [hc]
    exact (h.alone hp).trans (hlast hp)

theorem commits (h : Synced cfg i n) {k : Int} (hc : Commits n m k)
    (hk : n.raft.commitIndex ≤ k) (hrun : m.raft.running = true)
    (hlast : cfg.peersOf i = [] → k ≤ m.raft.lastLogIndex) : Synced cfg i m := by
  have hlow := h.low
  refine ⟨?_,?_,?_,?_⟩
  · rw [hc.lastApplied,hc.commitIndex,h.applied,max_eq_right hk]
  · rw [hc.commitIndex]
    omega
  · intro hr
    exact absurd (hrun.symm.trans hr) (by decide)
  · rwa [hc.commitIndex]

theorem onTimer (h : Synced cfg i n) (r : Readings) : Synced cfg i (n.onTimer r) := by
  have hs := Node.onTimer_still r n
  rcases Node.onTimer_cases r n with ⟨-,he⟩ | ⟨hrun,-,due,he⟩ | ⟨hrun,-,he⟩ | ⟨hrun,-,due,he⟩
  · rwa [he]
  · have hr : (n.onTimer r).raft = {n.raft with dueHeartBeat := due} := by
      rw [he,Node.doAppendEntries_heartbeat]
      rfl
    exact h.still hs (by simp [hr,hrun]) (fun _ => by rw [hr]; exact le_refl _)
  · have hr : (n.onTimer r).raft.running = n.raft.running ∧
        (n.onTimer r).raft.logs = n.raft.logs := by
      rw [he]
      rcases Node.timerFail_cases r (n.doElection r) with he' | ⟨-,due,he'⟩ <;> simp [he']
    refine h.still hs (by simp [hr.1,hrun]) (fun _ => ?_)
    unfold SRaft.lastLogIndex
    rw [hr.2]
  · exact h.still hs (by simp [he,hrun]) (fun _ => by rw [he]; exact le_refl _)

theorem doLog (h : Synced cfg i n) (hw : Wired cfg i n) (cmd : CString) :
    Synced cfg i (n.doLog cmd).1 ∧ n.raft.commitIndex ≤ (n.doLog cmd).1.raft.commitIndex := by
  rcases Node.doLog_commits cmd n with hs | ⟨hrun,-,hp,-,he,hcommit⟩
  · refine ⟨?_,by rw [hs.2.2.2.2]⟩
    rcases Node.doLog_cases cmd n with ⟨-,he⟩ | ⟨-,he⟩ | ⟨hrun,-,-,he⟩
    · rwa [he]
    · rw [he]
      exact h.still (.refl n) (fun hr => ⟨hr,rfl⟩) (fun _ => le_refl _)
    · obtain ⟨ci,la,hr⟩ := Node.logEntry_raft cmd n
      refine h.still hs (by simp [he,hr,hrun]) (fun _ => ?_)
      have hlast : (n.doLog cmd).1.raft.lastLogIndex = n.raft.lastLogIndex+1 := by
        rw [he,hr]
        simp [SRaft.lastLogIndex,Node.newEntry]
      omega
  · obtain ⟨ci,la,hr⟩ := Node.logEntry_raft cmd n
    have hnil : cfg.peersOf i = [] := by
      have hlen := hw.peers.length_le
      rw [hp] at hlen
      exact List.length_eq_zero_iff.mp (by simpa using hlen)
    have hk := h.alone hnil
    refine ⟨h.commits hcommit (by omega) (by rw [he,hr]; exact hrun) (fun _ => ?_),?_⟩
    · rw [he,hr]
      simp [SRaft.lastLogIndex,Node.newEntry]
    · rw [hcommit.commitIndex]
      omega

theorem run (h : Synced cfg i n) (ht : Tidy n) (hrun : n.raft.running = false) (r : Readings) :
    Synced cfg i (n.run r) := by
  have hs := Node.run_still r n
  have hlast := (SRaft.lastLogIndex_bounds (ht.run r).logs).1
  obtain ⟨hci,-⟩ := h.fresh hrun
  refine ⟨by rw [hs.2.2.2.1,hs.2.2.2.2,h.applied],by rw [hs.2.2.2.2]; exact h.low,?_,?_⟩
  · intro hr
    exact absurd hr (by simp [Node.run])
  · intro _
    rw [hs.2.2.2.2,hci]
    exact hlast

theorem onAppendEntriesRequest (h : Synced cfg i n) (hp : cfg.peersOf i ≠ [])
    (request : AppendEntriesRequest) (r : Readings) :
    Synced cfg i (n.onAppendEntriesRequest request r).1 := by
  refine h.still (Node.onAppendEntriesRequest_still request r n) ?_ (absurd · hp)
  rcases Node.onAppendEntriesRequest_cases request r n with
    ⟨-,he⟩ | ⟨hrun,-,-,due,he⟩ | ⟨hrun,-,-,-,logs,-,he⟩ | ⟨-,-,-,-,he⟩ <;> rw [he]
  · exact fun hr => ⟨hr,rfl⟩
  · exact fun hr => absurd (hrun.symm.trans hr) (by decide)
  · exact fun hr => absurd (hrun.symm.trans hr) (by decide)
  · exact fun hr => ⟨hr,rfl⟩

theorem onRequestVoteRequest (h : Synced cfg i n) (hp : cfg.peersOf i ≠ [])
    (request : RequestVoteRequest) : Synced cfg i (n.onRequestVoteRequest request).1 := by
  refine h.still (Node.onRequestVoteRequest_still request n) ?_ (absurd · hp)
  rcases Node.onRequestVoteRequest_cases request n with
    ⟨-,he,-⟩ | ⟨-,-,-,he⟩ | ⟨hrun,-,-,-,he⟩ <;> rw [he]
  · exact fun hr => ⟨hr,rfl⟩
  · exact fun hr => ⟨hr,rfl⟩
  · exact fun hr => absurd (hrun.symm.trans hr) (by decide)

theorem onRequestVoteResponse (h : Synced cfg i n) (hp : cfg.peersOf i ≠ [])
    (response : RequestVoteResponse) :
    Synced cfg i (n.onRequestVoteResponse response) := by
  refine h.still (Node.onRequestVoteResponse_still response n) ?_ (absurd · hp)
  rcases Node.onRequestVoteResponse_cases response n with
    ⟨-,he⟩ | ⟨-,-,he⟩ | ⟨-,hstate,-,he⟩ <;> rw [he]
  · exact fun hr => ⟨hr,(h.fresh hr).2.symm⟩
  · exact fun hr => ⟨hr,rfl⟩
  · intro hr
    rw [(h.fresh hr).2] at hstate
    exact absurd hstate (by decide)

/-- A leader runs, and the handler of a response does not change that. -/
theorem onAppendEntriesReponse (h : Synced cfg i n) (hp : cfg.peersOf i ≠ [])
    (response : AppendEntriesResponse) (isHeartbeat : Bool) :
    Synced cfg i (n.onAppendEntriesReponse response isHeartbeat) ∧
      n.raft.commitIndex ≤ (n.onAppendEntriesReponse response isHeartbeat).raft.commitIndex := by
  have hrun := Node.onAppendEntriesReponse_running response isHeartbeat n
  rcases Node.onAppendEntriesReponse_commits response isHeartbeat n with hs | ⟨hstate,hlt,hc⟩
  · refine ⟨h.still hs ?_ (absurd · hp),by rw [hs.2.2.2.2]⟩
    intro hr
    rw [hrun] at hr
    refine ⟨hr,?_⟩
    have hf := (h.fresh hr).2
    rcases Node.onAppendEntriesReponse_cases response isHeartbeat n with ⟨-,he⟩ | ⟨hl,-⟩
    · rw [he]
      obtain ⟨peers,ht⟩ := Node.touchPeer_raft response.name n
      rw [ht]
    · rw [hf] at hl
      exact absurd hl (by decide)
  · have hr : n.raft.running = true := by
      by_contra hr
      rw [(h.fresh (by simpa using hr)).2] at hstate
      exact absurd hstate (by decide)
    refine ⟨h.commits hc (by omega) (by rw [hrun]; exact hr) (absurd · hp),?_⟩
    rw [hc.commitIndex]
    omega

end Synced

/-- What the process at one address has done so far: the lookups, the pushes, the pops and
the store that they make. -/
structure Piped (server : Server) : Prop where
  lookups : server.node.applied.map Prod.fst =
    (List.range (server.node.raft.lastApplied+1).toNat).map (fun k : Nat => (k : Int))
  pushes : server.node.pushes = server.node.applied.filter (fun p => p.2 ≠ [])
  queue : ∃ que, server.node.channel = some que ∧
    server.popped++que = server.node.pushes.map Prod.snd
  kvDB : server.kvDB = Store.initial.executeAll server.popped

namespace Piped

variable {old new : Server}

theorem applies (h : Piped old) {more : List (Int × CString)}
    (hlow : -1 ≤ old.node.raft.lastApplied) (ha : Applies old.node new.node more)
    (hp : new.popped = old.popped) (hk : new.kvDB = old.kvDB) : Piped new := by
  obtain ⟨que,hque,hpop⟩ := h.queue
  refine ⟨?_,?_,⟨_,ha.channel que hque,?_⟩,by rw [hp,hk,h.kvDB]⟩
  · have hlen : (new.node.raft.lastApplied+1).toNat =
        (old.node.raft.lastApplied+1).toNat+more.length := by
      rw [ha.last]
      omega
    rw [ha.applied,List.map_append,h.lookups,ha.indices,hlen,List.range_add,
      List.map_append,List.map_map]
    congr 1
    refine List.map_congr_left (fun x _ => ?_)
    simp only [Function.comp_apply]
    push_cast
    omega
  · rw [ha.pushes,ha.applied,h.pushes,List.filter_append]
  · rw [ha.pushes,List.map_append,hp,← hpop,List.append_assoc]

theorem received (h : Piped old) (hr : Cluster.Received old new)
    (hs : Cluster.SameNode new.node old.node) : Piped new := by
  obtain ⟨hraft,-,-,happ,hpush,-⟩ := hs
  obtain ⟨que,hque,hpop⟩ := h.queue
  rcases hr with ⟨hc,hp,hk⟩ | ⟨cmd,rest,hold,hnew,hp,hk⟩
  · exact ⟨by rw [happ,hraft]; exact h.lookups,by rw [hpush,happ]; exact h.pushes,
      ⟨que,hc ▸ hque,by rw [hp,hpush]; exact hpop⟩,by rw [hk,hp]; exact h.kvDB⟩
  · obtain rfl := Option.some.inj (hold.symm.trans hque)
    refine ⟨by rw [happ,hraft]; exact h.lookups,by rw [hpush,happ]; exact h.pushes,
      ⟨rest,hnew,?_⟩,?_⟩
    · rw [hp,hpush,← hpop]
      simp
    · rw [hk,hp,h.kvDB]
      simp [Store.executeAll]

theorem boot (cfg : Config) (i : CString) (persist : Option PersistRecord) (life : Nat) :
    Piped (Server.boot cfg i persist life) :=
  ⟨rfl,rfl,⟨[],rfl,rfl⟩,rfl⟩

end Piped

namespace Cluster

variable {cfg : Config} {c c' : Cluster}

/-- The invariant of the pipeline, with the invariants of the nodes it rests on. -/
structure PipeInv (cfg : Config) (c : Cluster) : Prop where
  tidy : (∀ i, Tidy (c.servers i).node) ∧ ∀ rpc ∈ c.net, TidyRpc rpc
  wired : (∀ i, Wired cfg i (c.servers i).node) ∧ ∀ rpc ∈ c.net, WiredRpc cfg rpc
  synced : ∀ i, Synced cfg i (c.servers i).node
  piped : ∀ i, Piped (c.servers i)

theorem PipeInv.channel (h : PipeInv cfg c) (i : CString) :
    (c.servers i).node.channel ≠ none := by
  obtain ⟨que,hque,-⟩ := (h.piped i).queue
  rw [hque]
  simp

/-- What a node is sent comes from one of its peers. -/
theorem PipeInv.has_peer (h : PipeInv cfg c) (hc : cfg.Symmetric) {rpc : Rpc}
    (hrpc : rpc ∈ c.net) : cfg.peersOf rpc.src ≠ [] ∧ cfg.peersOf rpc.dst ≠ [] :=
  ⟨List.ne_nil_of_mem (h.wired.2 rpc hrpc).dst,
    List.ne_nil_of_mem ((h.wired.2 rpc hrpc).symmetric hc).2.2⟩

/-- What a handler does to the pipeline of its node. -/
theorem PipeInv.move (h : PipeInv cfg c) (hc : cfg.Symmetric) {i : CString} {e : Event}
    {n : Node} {net : List Rpc} (hm : c.Move i e n net) :
    Synced cfg i n ∧ (c.raft i).commitIndex ≤ n.raft.commitIndex ∧
      (Still (c.servers i).node n ∨ ∃ k, k < 2^63 ∧ Commits (c.servers i).node n k) := by
  have hs := h.synced i
  cases hm with
  | run r hrun =>
    have hstill := Node.run_still r (c.servers i).node
    exact ⟨hs.run (h.tidy.1 i) hrun r,hstill.2.2.2.2.ge,.inl hstill⟩
  | timer r =>
    have hstill := Node.onTimer_still r (c.servers i).node
    exact ⟨hs.onTimer r,hstill.2.2.2.2.ge,.inl hstill⟩
  | doLog cmd =>
    obtain ⟨h1,h2⟩ := hs.doLog (h.wired.1 i) cmd
    exact ⟨h1,h2,(Node.doLog_commits cmd _).imp id (fun hk => ⟨_,hk.2.2.2.1,hk.2.2.2.2.2⟩)⟩
  | putLog request _ =>
    obtain ⟨h1,h2⟩ := hs.doLog (h.wired.1 i) request.command
    exact ⟨h1,h2,(Node.doLog_commits _ _).imp id (fun hk => ⟨_,hk.2.2.2.1,hk.2.2.2.2.2⟩)⟩
  | voteCall k r src life request response hk _ =>
    have hp := (h.has_peer hc (List.mem_of_getElem? hk)).2
    have hstill := Node.onRequestVoteRequest_still request (c.servers i).node
    exact ⟨hs.onRequestVoteRequest hp request,hstill.2.2.2.2.ge,.inl hstill⟩
  | appendCall k r src life request isHeartbeat hk _ =>
    have hp := (h.has_peer hc (List.mem_of_getElem? hk)).2
    have hstill := Node.onAppendEntriesRequest_still request r (c.servers i).node
    exact ⟨hs.onAppendEntriesRequest hp request r,hstill.2.2.2.2.ge,.inl hstill⟩
  | voteReply k dst request response hk =>
    have hp := (h.has_peer hc (List.mem_of_getElem? hk)).1
    have hstill := Node.onRequestVoteResponse_still response (c.servers i).node
    exact ⟨hs.onRequestVoteResponse hp response,hstill.2.2.2.2.ge,.inl hstill⟩
  | appendReply k dst request isHeartbeat response hk =>
    have hp := (h.has_peer hc (List.mem_of_getElem? hk)).1
    obtain ⟨h1,h2⟩ := hs.onAppendEntriesReponse hp response isHeartbeat
    obtain ⟨-,-,hlt⟩ : TidyRequest request ∧ TidyResponse response :=
      h.tidy.2 _ (List.mem_of_getElem? hk)
    exact ⟨h1,h2,(Node.onAppendEntriesReponse_commits response isHeartbeat _).imp id
      (fun hk => ⟨_,hlt,hk.2.2⟩)⟩

/-- The lookups of a handler stay within `int64_t`. -/
theorem PipeInv.applies (h : PipeInv cfg c) (hc : cfg.Symmetric) {i : CString} {e : Event}
    {n : Node} {net : List Rpc} (hm : c.Move i e n net) :
    ∃ more, Applies (c.servers i).node n more ∧ ∀ p ∈ more, -1 < p.1 ∧ p.1 < 2^63 := by
  obtain ⟨-,-,⟨ha,hp,hch,hl,-⟩ | ⟨k,hk,hcommit⟩⟩ := h.move hc hm
  · exact ⟨[],.same ha hp hch hl,fun p hp => absurd hp List.not_mem_nil⟩
  · obtain ⟨more,happ⟩ := hcommit.applies (h.channel i)
    refine ⟨more,happ,?_⟩
    intro p hp
    have hlow := (h.synced i).low
    rw [← (h.synced i).applied] at hlow
    have hlast := hcommit.lastApplied
    obtain ⟨hlt,hle⟩ := happ.index hp
    omega

theorem PipeInv.initial (cfg : Config) : PipeInv cfg (.initial cfg) := by
  have hrefl : (machine cfg).Path Machine.always (.initial cfg) (.initial cfg) := .refl _
  refine ⟨(tidy_invariant cfg).reachable hrefl,(wired_invariant cfg).reachable hrefl,?_,?_⟩
  · intro i
    exact ⟨rfl,le_refl _,fun _ => ⟨rfl,rfl⟩,fun _ => le_refl _⟩
  · intro i
    exact Piped.boot cfg i none 0

theorem PipeInv.step (hc : cfg.Symmetric) {e : Event} (h : PipeInv cfg c)
    (hs : (machine cfg).step c e = some c') : PipeInv cfg c' := by
  have htidy := (tidy_invariant cfg).step h.tidy hs
  have hwired := (wired_invariant cfg).step h.wired hs
  suffices hnew : (∀ i, Synced cfg i (c'.servers i).node) ∧ ∀ i, Piped (c'.servers i) from
    ⟨htidy,hwired,hnew.1,hnew.2⟩
  rcases step_cases hs with
    ⟨i,n,net,-,hmove,hmoved⟩ | ⟨k,rpc,-,-,rfl⟩ | ⟨i,-,-,rfl⟩ | ⟨-,hq⟩
  · obtain ⟨hsync,-⟩ := h.move hc hmove
    refine ⟨hmoved.each (P := fun j s => Synced cfg j s.node) ?_ (fun j _ => h.synced j),
      hmoved.each (P := fun _ s => Piped s) ?_ (fun j _ => h.piped j)⟩
    · rw [hmoved.node]
      exact ⟨hsync.applied,hsync.low,hsync.fresh,hsync.alone⟩
    · have hlow := (h.synced i).low
      rw [← (h.synced i).applied] at hlow
      obtain ⟨more,happ,-⟩ := h.applies hc hmove
      have hsent : Applies (c.servers i).node (c'.servers i).node more := by
        rw [hmoved.node]
        exact ⟨happ.applied,happ.pushes,happ.channel,happ.indices,happ.last,happ.data⟩
      exact (h.piped i).applies hlow hsent hmoved.popped hmoved.kvDB
  · exact ⟨h.synced,h.piped⟩
  · refine ⟨crashed_each (P := fun j s => Synced cfg j s.node) ?_ (fun j _ => h.synced j),
      crashed_each (P := fun _ s => Piped s) ?_ (fun j _ => h.piped j)⟩
    · exact ⟨rfl,le_refl _,fun _ => ⟨rfl,rfl⟩,fun _ => le_refl _⟩
    · exact Piped.boot cfg i _ _
  · refine ⟨fun j => ?_,fun j => (h.piped j).received (hq.received j) (hq.node j)⟩
    obtain ⟨hr,-⟩ := hq.node j
    have := h.synced j
    exact ⟨by rw [hr]; exact this.applied,by rw [hr]; exact this.low,
      by rw [hr]; exact this.fresh,by rw [hr]; exact this.alone⟩

theorem PipeInv.reachable (hc : cfg.Symmetric) {ok : Cluster → Event → Prop}
    (h : (machine cfg).Path ok (.initial cfg) c) : PipeInv cfg c :=
  h.invariant (fun _ _ _ hi _ hs => hi.step hc hs) (.initial cfg)

/-- No step but the death of its process takes `commitIndex_` of a node back. -/
theorem PipeInv.commitIndex_mono (hc : cfg.Symmetric) (h : PipeInv cfg c) {e : Event}
    (hs : (machine cfg).step c e = some c') {i : CString} (he : e ≠ .crash i) :
    (c.raft i).commitIndex ≤ (c'.raft i).commitIndex := by
  rcases step_cases hs with
    ⟨j,n,net,-,hmove,hmoved⟩ | ⟨k,rpc,-,-,rfl⟩ | ⟨j,-,rfl,rfl⟩ | ⟨-,hq⟩
  · by_cases hi : i = j
    · subst hi
      obtain ⟨-,hle,-⟩ := h.move hc hmove
      have hn : (c'.raft i).commitIndex = n.raft.commitIndex := by rw [raft,hmoved.node]
      rwa [hn]
    · rw [raft,raft,hmoved.other i hi]
  · exact le_refl _
  · have hi : i ≠ j := fun hij => he (hij ▸ rfl)
    simp [crashed,raft,hi]
  · obtain ⟨hr,-⟩ := hq.node i
    rw [raft,raft,hr]

end Cluster

/-- The pipeline of one process, from commit to store, in every reachable state. The value of
a key is the last one put, with what was appended to it since. -/
theorem apply_pipeline (cfg : Config) (hc : cfg.Symmetric) (c : Cluster) (i : CString)
    (h : (machine cfg).Path Machine.always (.initial cfg) c) :
    (c.raft i).lastApplied = (c.raft i).commitIndex ∧
    (∀ e c', e ≠ .crash i → (machine cfg).step c e = some c' →
      (c.raft i).commitIndex ≤ (c'.raft i).commitIndex ∧
      (c.raft i).lastApplied ≤ (c'.raft i).lastApplied) ∧
    (c.servers i).node.applied.map Prod.fst =
      (List.range ((c.raft i).lastApplied+1).toNat).map (fun k : Nat => (k : Int)) ∧
    (c.servers i).node.pushes =
      (c.servers i).node.applied.filter (fun p => p.2 ≠ []) ∧
    (c.servers i).popped <+: (c.servers i).node.pushes.map Prod.snd ∧
    ∀ key, (c.servers i).kvDB key = valueOf key ((c.servers i).popped.filterMap operation) := by
  have hinv := Cluster.PipeInv.reachable hc h
  have hpipe := hinv.piped i
  obtain ⟨que,-,hpop⟩ := hpipe.queue
  refine ⟨(hinv.synced i).applied,?_,hpipe.lookups,hpipe.pushes,⟨que,hpop⟩,?_⟩
  · intro e c' he hs
    have hmono := hinv.commitIndex_mono hc hs he
    have hsync := (hinv.synced i).applied
    have hsync' := ((hinv.step hc hs).synced i).applied
    exact ⟨hmono,hsync.le.trans (hmono.trans hsync'.ge)⟩
  · intro key
    rw [hpipe.kvDB]
    exact executeAll_valueOf _ key

/-- The same in a run in which a key is put and then appended to. -/
theorem apply_pipeline_two : ∃ c : Cluster, (c.servers ['a']).kvDB ['k'] = some ['v','w'] ∧
    (c.raft ['a']).lastApplied = (c.raft ['a']).commitIndex ∧
    (∀ e c', e ≠ .crash ['a'] → (machine .two).step c e = some c' →
      (c.raft ['a']).commitIndex ≤ (c'.raft ['a']).commitIndex ∧
      (c.raft ['a']).lastApplied ≤ (c'.raft ['a']).lastApplied) ∧
    (c.servers ['a']).node.applied.map Prod.fst =
      (List.range ((c.raft ['a']).lastApplied+1).toNat).map (fun k : Nat => (k : Int)) ∧
    (c.servers ['a']).node.pushes =
      (c.servers ['a']).node.applied.filter (fun p => p.2 ≠ []) ∧
    (c.servers ['a']).popped <+: (c.servers ['a']).node.pushes.map Prod.snd ∧
    ∀ key, (c.servers ['a']).kvDB key =
      valueOf key ((c.servers ['a']).popped.filterMap operation) := by
  obtain ⟨c,hp,hpopped⟩ := Machine.exec_any (machine .two) Machine.always (.initial .two)
    [.run ['a'] (.now 0),.run ['b'] (.now 0),.timer ['a'] (.now 451),.deliver 0 (.now 451),
      .respond 0,.doLog ['a'] "put k v".toList,.deliver 0 (.now 451),.respond 0,
      .receive ['a'],.doLog ['a'] "append k w".toList,.deliver 0 (.now 451),.respond 0,
      .receive ['a']]
    (fun c => (c.servers ['a']).popped = ["put k v".toList,"append k w".toList])
    (by decide +kernel)
  have hpipe := apply_pipeline .two Config.two_symmetric c ['a'] hp
  refine ⟨c,?_,hpipe⟩
  rw [hpipe.2.2.2.2.2 ['k'],of_decide_eq_true hpopped]
  decide +kernel

end SRaftMuduo
