import SRaftMuduo.Cluster.Safety
import SRaftMuduo.Cluster.Turns
import Mathlib.Data.Finset.Max

namespace SRaftMuduo

open Replication

/-- What begins a filtered list is the filtered beginning of the list. -/
theorem eq_filter_take {α : Type*} {p : α → Bool} {xs ys : List α} (h : ys <+: xs.filter p) :
    ∃ k ≤ xs.length, ys = (xs.take k).filter p := by
  induction xs generalizing ys with
  | nil => exact ⟨0,le_refl _,by simpa using h⟩
  | cons x xs ih =>
    by_cases hx : p x = true
    · rw [List.filter_cons_of_pos hx] at h
      cases ys with
      | nil => exact ⟨0,Nat.zero_le _,rfl⟩
      | cons y ys =>
        obtain ⟨rfl,hys⟩ := List.cons_prefix_cons.mp h
        obtain ⟨k,hk,rfl⟩ := ih hys
        refine ⟨k+1,by simpa using hk,?_⟩
        rw [List.take_succ_cons,List.filter_cons_of_pos hx]
    · rw [List.filter_cons_of_neg hx] at h
      obtain ⟨k,hk,rfl⟩ := ih h
      refine ⟨k+1,by simpa using hk,?_⟩
      rw [List.take_succ_cons,List.filter_cons_of_neg hx]

/-- A command without a token leaves the store. -/
theorem Store.executeAll_filter (db : Store) (cmds : List CString) :
    db.executeAll (cmds.filter (fun cmd => cmd ≠ [])) = db.executeAll cmds := by
  induction cmds generalizing db with
  | nil => rfl
  | cons cmd cmds ih =>
    by_cases hcmd : cmd = []
    · subst hcmd
      rw [List.filter_cons_of_neg (by simp),ih]
      rfl
    · rw [List.filter_cons_of_pos (by simpa using hcmd)]
      exact ih (db.execute cmd)

namespace Cluster

variable {cfg : Config} {c c' : Cluster} {g : History} {e : Event} {i : CString}

/-- `commitIndex_` of a process has the value it started with, or one that was noted. -/
def Noted (c : Cluster) : Prop :=
  ∀ j, (c.raft j).commitIndex = -1 ∨
    ∃ m ∈ c.commits, m.server = j ∧ m.index = (c.raft j).commitIndex

theorem step_commits (hs : (machine cfg).step c e = some c') : c.commits <+: c'.commits := by
  rcases step_cases hs with
    ⟨i,n,net,-,-,hmoved⟩ | ⟨k,rpc,-,-,rfl⟩ | ⟨i,-,-,rfl⟩ | ⟨-,hq⟩
  · rw [hmoved.commits]
    exact List.prefix_append _ _
  · exact List.prefix_rfl
  · exact List.prefix_rfl
  · rw [hq.commits]

theorem Noted.step (h : Noted c) (hs : (machine cfg).step c e = some c') : Noted c' := by
  have hkeep : ∀ j, (c'.raft j).commitIndex = (c.raft j).commitIndex →
      (c'.raft j).commitIndex = -1 ∨
        ∃ m ∈ c'.commits, m.server = j ∧ m.index = (c'.raft j).commitIndex := by
    intro j hj
    rw [hj]
    rcases h j with hnew | ⟨m,hm,hnoted⟩
    · exact .inl hnew
    · exact .inr ⟨m,(step_commits hs).subset hm,hnoted⟩
  intro j
  rcases step_cases hs with
    ⟨i,n,net,-,-,hmoved⟩ | ⟨k,rpc,-,-,rfl⟩ | ⟨i,-,-,rfl⟩ | ⟨-,hq⟩
  · by_cases hj : j = i
    · subst hj
      have hnode : c'.raft j = n.raft := by rw [raft,hmoved.node]
      by_cases hsame : n.raft.commitIndex = (c.raft j).commitIndex
      · exact hkeep j (by rw [hnode,hsame])
      · refine .inr ⟨⟨j,n.raft.currentTerm,n.raft.commitIndex⟩,?_,rfl,by rw [hnode]⟩
        rw [hmoved.commits,if_neg hsame]
        simp
    · exact hkeep j (by rw [raft,raft,hmoved.other j hj])
  · exact hkeep j rfl
  · by_cases hj : j = i
    · subst hj
      exact .inl (by simp [crashed,raft,Server.boot,Node.create,SRaft.create])
    · exact hkeep j (by simp [crashed,raft,hj])
  · obtain ⟨hr,-⟩ := hq.node j
    exact hkeep j (by rw [raft,raft,hr])

theorem Noted.reachable {ok : Cluster → Event → Prop}
    (h : (machine cfg).Path ok (.initial cfg) c) : Noted c :=
  h.invariant (fun _ _ _ hn _ hs => hn.step hs) (fun _ => .inl rfl)

/-- What a node has committed stands in its log. -/
theorem Committing.noted (h : Committing cfg c g) (hn : Noted c) {j : CString} {x : LogEntry}
    (hx : x ∈ (c.raft j).logs) (hle : x.index ≤ (c.raft j).commitIndex) :
    ∃ m ∈ c.commits, ∃ p : Nat, x.index = p ∧ (p : Int) ≤ m.index ∧
      (g.canon m.term)[p]? = some x := by
  obtain ⟨-,p,hp,hpos⟩ := h.copying.position hx
  rcases hn j with hnew | ⟨m,hm,rfl,hindex⟩
  · omega
  obtain ⟨hwon,k,hk,hcommit⟩ := h.commits m hm
  have hown := h.owned _ _ _ hwon hcommit.1
  obtain ⟨rest,hr⟩ := hcommit.retained h.sound hown
  have hlen := hcommit.1.le_length
  refine ⟨m,hm,p,hp,by omega,?_⟩
  rw [← hr,List.getElem?_append_left (by rw [List.length_take]; omega),List.getElem?_take,
    if_pos (by omega)] at hpos
  exact hpos

/-- Two histories of one state agree on what is committed: a quorum of each holds it. -/
theorem Committing.common (h : Committing cfg c g) {g' : History} (h' : Committing cfg c g')
    {m : Commit} (hm : m ∈ c.commits) {p : Nat} (hp : (p : Int) ≤ m.index) :
    (g.canon m.term)[p]? = (g'.canon m.term)[p]? := by
  obtain ⟨-,k,hk,hcommit⟩ := h.commits m hm
  obtain ⟨-,k',hk',hcommit'⟩ := h'.commits m hm
  obtain rfl : k = k' := by omega
  obtain ⟨v,hv,hv'⟩ := cfg.quorums.inter hcommit.2 hcommit'.2
  have hheld := hcommit.retained h.sound hv
  have hheld' := hcommit'.retained h'.sound hv'
  have hlog : g.log v = g'.log v :=
    (h.copying.node v).ownLog.symm.trans (h'.copying.node v).ownLog
  rw [← hlog] at hheld'
  have hlen : ((g.canon m.term).take k).length = ((g'.canon m.term).take k).length := by
    have hle := hcommit.1.le_length
    have hle' := hcommit'.1.le_length
    rw [List.length_take,List.length_take]
    omega
  have htake := (List.prefix_of_prefix_length_le hheld hheld' hlen.le).eq_of_length hlen
  have hat := congrArg (fun xs => xs[p]?) htake
  simpa [List.getElem?_take,show p < k by omega] using hat

/-- All that is committed is one sequence. -/
theorem Committing.sequence (h : Committing cfg c g) : ∃ entries : List CString,
    (∀ m ∈ c.commits, m.index < entries.length) ∧
    (∀ k < entries.length, ∃ m ∈ c.commits, (k : Int) ≤ m.index) ∧
    ∀ p, Decided cfg g p → p.1 < entries.length →
      ∃ k : Nat, p.1 = k ∧ entries[k]? = some p.2 := by
  by_cases hnil : c.commits = []
  · refine ⟨[],by simp [hnil],by simp,?_⟩
    rintro p ⟨t,len,k,x,-,-,-,hk,-⟩ hlt
    simp only [List.length_nil] at hlt
    omega
  -- the sequence is the log of the term of the highest commit
  obtain ⟨top,htop,hmax⟩ := Finset.exists_max_image c.commits.toFinset Commit.index
    ⟨_,List.mem_toFinset.mpr (List.head_mem hnil)⟩
  have htop := List.mem_toFinset.mp htop
  obtain ⟨-,len,hlen,hcommit⟩ := h.commits top htop
  have hle := hcommit.1.le_length
  have hsize : (((g.canon top.term).take len).map LogEntry.data).length = len := by
    rw [List.length_map,List.length_take,Nat.min_eq_left hle]
  refine ⟨((g.canon top.term).take len).map LogEntry.data,?_,?_,?_⟩
  · intro m hm
    have := hmax m (List.mem_toFinset.mpr hm)
    omega
  · intro k hk
    exact ⟨top,htop,by omega⟩
  · rintro p ⟨t,j,k,x,hcommit',hj,hx,hk,hd⟩ hlt
    refine ⟨k,hk,?_⟩
    have hsame := hcommit'.agree hcommit h.sound hj (i := k) (by omega)
    rw [hx] at hsame
    rw [List.getElem?_map,List.getElem?_take,if_pos (by omega),← hsame,hd]
    rfl

/-- What a process has looked up is the beginning of the sequence. -/
theorem Committing.looked (h : Committing cfg c g) (hn : Noted c) {entries : List CString}
    (hall : ∀ m ∈ c.commits, m.index < entries.length)
    (hdata : ∀ p, Decided cfg g p → p.1 < entries.length →
      ∃ k : Nat, p.1 = k ∧ entries[k]? = some p.2) (i : CString) :
    (c.raft i).commitIndex+1 ≤ entries.length ∧ (c.servers i).node.applied.map Prod.snd =
      entries.take ((c.raft i).commitIndex+1).toNat := by
  have hle : (c.raft i).commitIndex+1 ≤ entries.length := by
    rcases hn i with hnew | ⟨m,hm,-,hindex⟩
    · omega
    · have := hall m hm
      omega
  refine ⟨hle,?_⟩
  have hlookups := (h.pipe.piped i).lookups
  have hsync : (c.servers i).node.raft.lastApplied = (c.raft i).commitIndex :=
    (h.pipe.synced i).applied
  rw [hsync] at hlookups
  have hlen : (c.servers i).node.applied.length = ((c.raft i).commitIndex+1).toNat := by
    have hmap := congrArg List.length hlookups
    simpa using hmap
  refine List.ext_getElem? (fun k => ?_)
  by_cases hk : k < ((c.raft i).commitIndex+1).toNat
  · obtain ⟨p,hp⟩ : ∃ p, (c.servers i).node.applied[k]? = some p :=
      ⟨_,List.getElem?_eq_getElem (by omega)⟩
    have hfst : p.1 = k := by
      have hat := congrArg (fun xs => xs[k]?) hlookups
      simp only [List.getElem?_map,hp,List.getElem?_range hk,Option.map_some] at hat
      exact Option.some.inj hat
    obtain ⟨j,hj,hentry⟩ := hdata p (h.applied i p (List.mem_of_getElem? hp)) (by omega)
    obtain rfl : k = j := by omega
    rw [List.getElem?_map,hp,List.getElem?_take,if_pos hk,hentry]
    rfl
  · rw [List.getElem?_eq_none (by rw [List.length_map]; omega),
      List.getElem?_eq_none (by rw [List.length_take]; omega)]

/-- All that is committed is one sequence, whoever committed it and when. What a process has
looked up is the beginning of it. -/
theorem committed_sequence (hc : cfg.Symmetric)
    (h : (machine cfg).Path (commitSound cfg) (.initial cfg) c) : ∃ entries : List CString,
    (∀ m ∈ c.commits, m.index < entries.length) ∧
    (∀ k < entries.length, ∃ m ∈ c.commits, (k : Int) ≤ m.index) ∧
    (∀ s, (machine cfg).Path (commitSound cfg) (.initial cfg) s →
      (machine cfg).Path (commitSound cfg) s c → ∀ j, ∀ x ∈ (s.raft j).logs,
        x.index ≤ (s.raft j).commitIndex →
          ∃ k : Nat, x.index = k ∧ entries[k]? = some x.data) ∧
    PipeInv cfg c ∧
    ∀ i, (c.raft i).commitIndex+1 ≤ entries.length ∧
      (c.servers i).node.applied.map Prod.snd =
        entries.take ((c.raft i).commitIndex+1).toNat := by
  obtain ⟨g,-,hg⟩ := (Committing.initial cfg).simulates hc h
  have hnoted := Noted.reachable h
  obtain ⟨entries,hall,honly,hdata⟩ := hg.sequence
  refine ⟨entries,hall,honly,?_,hg.pipe,hg.looked hnoted hall hdata⟩
  intro s hs ht j x hx hle
  obtain ⟨g₀,-,hg₀⟩ := (Committing.initial cfg).simulates hc hs
  obtain ⟨g₁,hpath,hg₁⟩ := hg₀.simulates hc ht
  have hgrow := (hg₀.sound.path hpath).2
  obtain ⟨m,hm,p,hp,hpm,hentry⟩ := hg₀.noted (Noted.reachable hs) hx hle
  have hm' : m ∈ c.commits := by
    refine ht.invariant (I := fun t => m ∈ t.commits) ?_ hm
    exact fun _ _ _ hi _ hstep => (step_commits hstep).subset hi
  obtain ⟨rest,hr⟩ := hgrow.canon m.term
  have hlater : (g₁.canon m.term)[p]? = some x := by
    rw [← hr,List.getElem?_append_left (List.getElem?_eq_some_iff.mp hentry).1]
    exact hentry
  rw [← hg.common hg₁ hm' hpm] at hlater
  obtain ⟨-,k,hk,hcommit⟩ := hg.commits m hm'
  have hlt := hall m hm'
  exact hdata (x.index,x.data) ⟨m.term,k,p,x,hcommit,by omega,hlater,hp,rfl⟩ (by
    change x.index < _
    omega)

end Cluster

namespace Threaded

/-- The condition of the cluster on its handlers. A thread takes its turn at any time. -/
def commitSound (cfg : Config) (s : Threaded) : TurnEvent → Prop
  | .handler e => s.cluster.commitSound cfg e
  | _ => True

instance (cfg : Config) (s : Threaded) (e : TurnEvent) : Decidable (s.commitSound cfg e) := by
  cases e with
  | handler e => exact inferInstanceAs (Decidable (s.cluster.commitSound cfg e))
  | popData | beginWrite | endWrite => exact .isTrue trivial

variable {cfg : Config} {s t : Threaded}

theorem path_settled (h : (threaded cfg).Path (commitSound cfg) s t) :
    (machine cfg).Path (Cluster.commitSound cfg) s.settled t.settled := by
  refine h.image (f := settled) ?_
  intro s e t hok hs
  rcases step_settled hs with ⟨b,hb,hstep⟩ | ⟨-,hsame⟩
  · refine .inl ⟨b,?_,hstep⟩
    cases e with
    | handler e =>
      obtain rfl := Option.some.inj hb
      exact hok
    | popData i =>
      obtain rfl := Option.some.inj hb
      exact ⟨⟨rfl,rfl⟩,rfl⟩
    | beginWrite | endWrite => exact absurd hb (by simp [TurnEvent.base])
  · exact .inr hsame

/-- The data of all that was committed before `s`, in the order of the indices. -/
structure CommittedData (cfg : Config) (s : Threaded) (entries : List CString) : Prop where
  all : ∀ m ∈ s.cluster.commits, m.index < entries.length
  only : ∀ k < entries.length, ∃ m ∈ s.cluster.commits, (k : Int) ≤ m.index
  data : ∀ t, (threaded cfg).Path (commitSound cfg) (.initial cfg) t →
    (threaded cfg).Path (commitSound cfg) t s → ∀ j, ∀ x ∈ (t.cluster.raft j).logs,
      x.index ≤ (t.cluster.raft j).commitIndex →
        ∃ k : Nat, x.index = k ∧ entries[k]? = some x.data

/-- A leader answers from the beginning of the sequence of all that was committed, as far as its
thread has got with it. With nothing in the channel or in the thread's hand that is as far as
its process has committed, and all of it, when besides no node has committed more. -/
theorem leader_reads (hc : cfg.Symmetric)
    (h : (threaded cfg).Path (commitSound cfg) (.initial cfg) s) :
    ∃ entries, CommittedData cfg s entries ∧
      ∀ i state key response, s.get i state key = some response →
        response.wrongLeader = false → ∃ taken, taken <+: entries ∧
          response = (Store.initial.executeAll taken).answer key ∧
          (s.cluster.servers i).popped =
            taken.filter (fun cmd => cmd ≠ [])++(s.turn i).hand ∧
          ((s.cluster.servers i).node.channel = some [] → s.turn i = .waiting →
            (taken.length : Int) = (s.cluster.raft i).commitIndex+1 ∧
            ((∀ m ∈ s.cluster.commits, m.index ≤ (s.cluster.raft i).commitIndex) →
              taken = entries)) := by
  obtain ⟨entries,hall,honly,hdata,hpipe,hlooked⟩ :=
    Cluster.committed_sequence hc (path_settled h)
  refine ⟨entries,⟨hall,honly,fun t ht hts => hdata t.settled (path_settled ht)
    (path_settled hts)⟩,?_⟩
  intro i state key response hget hright
  obtain ⟨hle,happlied⟩ := hlooked i
  obtain ⟨executed,que,hpopped,hdb,hque,hsplit⟩ := (turned_reachable h i).split (hpipe.piped i)
  replace hsplit : executed++(s.turn i).hand++que =
      (entries.take ((s.cluster.raft i).commitIndex+1).toNat).filter (fun cmd => cmd ≠ []) :=
    hsplit.trans (congrArg (List.filter _) happlied)
  have hanswer := get_right hget hright
  rw [hdb] at hanswer
  by_cases hdrained : que = [] ∧ s.turn i = .waiting
  · obtain ⟨rfl,hturn⟩ := hdrained
    rw [hturn,Turn.hand,List.append_nil,List.append_nil] at hsplit
    refine ⟨_,List.take_prefix _ _,?_,by rw [← hsplit]; exact hpopped,fun _ _ => ?_⟩
    · rw [hanswer,hsplit,Store.executeAll_filter]
    · have hlow : -1 ≤ (s.cluster.raft i).commitIndex := (hpipe.synced i).low
      have hsize : ((s.cluster.raft i).commitIndex+1).toNat ≤ entries.length := by
        change (s.cluster.raft i).commitIndex+1 ≤ _ at hle
        omega
      refine ⟨?_,fun hmost => ?_⟩
      · rw [List.length_take,Nat.min_eq_left hsize]
        omega
      · refine List.take_of_length_le ?_
        by_contra hmore
        obtain ⟨m,hm,hk⟩ := honly ((s.cluster.raft i).commitIndex+1).toNat (by omega)
        have := hmost m hm
        omega
  · obtain ⟨k,-,rfl⟩ := eq_filter_take (hsplit ▸ (List.prefix_append executed _).trans
      (List.prefix_append _ que))
    refine ⟨(entries.take ((s.cluster.raft i).commitIndex+1).toNat).take k,
      (List.take_prefix k _).trans (List.take_prefix _ _),?_,hpopped,?_⟩
    · rw [hanswer,Store.executeAll_filter]
    · intro hch hturn
      rw [hque] at hch
      exact absurd ⟨Option.some.inj hch,hturn⟩ hdrained

/-- `a` reads what it has written, once its thread has put it into the store. -/
theorem leader_reads_two : ∃ (s : Threaded) (entries : List CString),
    CommittedData .two s entries ∧
    s.get ['a'] .leader ['k'] = some ⟨false,errNone,['v']⟩ ∧ entries.length = 1 ∧
    ⟨false,errNone,['v']⟩ = (Store.initial.executeAll entries).answer ['k'] := by
  obtain ⟨s,hp,hs⟩ := Machine.exec_any (threaded .two) (commitSound .two) (.initial .two)
    [.handler (.run ['a'] (.now 0)),.handler (.run ['b'] (.now 0)),
      .handler (.timer ['a'] (.now 451)),.handler (.deliver 0 (.now 451)),.handler (.respond 0),
      .handler (.putCheck ['a'] ⟨['k'],['v'],opPut⟩),.handler (.putLog ['a']),
      .handler (.deliver 0 (.now 451)),.handler (.respond 0),.popData ['a'],.beginWrite ['a'],
      .endWrite ['a']]
    (fun (s : Threaded) => decide (s.get ['a'] .leader ['k'] = some ⟨false,errNone,['v']⟩ ∧
        (s.cluster.servers ['a']).node.channel = some [] ∧ s.turn ['a'] = .waiting ∧
        (s.cluster.raft ['a']).commitIndex = 0) &&
      s.cluster.commits.all (fun m => m.index ≤ 0)) (by decide +kernel)
  simp only [Bool.and_eq_true,List.all_eq_true,decide_eq_true_eq] at hs
  obtain ⟨⟨hget,hch,hturn,hci⟩,hmost⟩ := hs
  obtain ⟨entries,hdata,hreads⟩ := leader_reads Config.two_symmetric hp
  obtain ⟨taken,-,hanswer,-,hdrained⟩ := hreads ['a'] .leader ['k'] _ hget rfl
  obtain ⟨hlen,hfull⟩ := hdrained hch hturn
  obtain rfl := hfull (by rw [hci]; exact hmost)
  exact ⟨s,taken,hdata,hget,by omega,hanswer⟩

/-- `a` has committed a write, and answers for the store without it. -/
theorem leader_reads_stale : ∃ (s : Threaded) (x : LogEntry) (response : GetResponse),
    (threaded .two).Path (commitSound .two) (.initial .two) s ∧
    (s.cluster.raft ['a']).state = .leader ∧ (s.cluster.raft ['a']).logs = [x] ∧ x.index = 0 ∧
    (s.cluster.raft ['a']).commitIndex = 0 ∧ (s.cluster.raft ['b']).commitIndex = -1 ∧
    s.get ['a'] .leader ['k'] = some response ∧ response.wrongLeader = false ∧
    response ≠ (Store.initial.executeAll [x.data]).answer ['k'] := by
  obtain ⟨s,hp,hs⟩ := Machine.exec_any (threaded .two) (commitSound .two) (.initial .two)
    [.handler (.run ['a'] (.now 0)),.handler (.run ['b'] (.now 0)),
      .handler (.timer ['a'] (.now 451)),.handler (.deliver 0 (.now 451)),.handler (.respond 0),
      .handler (.putCheck ['a'] ⟨['k'],['v'],opPut⟩),.handler (.putLog ['a']),
      .handler (.deliver 0 (.now 451)),.handler (.respond 0)]
    (fun (s : Threaded) => (s.cluster.raft ['a']).state = .leader ∧
      (s.cluster.raft ['a']).logs = [⟨0,1,0,opPut++[' ','k',' ','v'],true⟩] ∧
      (s.cluster.raft ['a']).commitIndex = 0 ∧ (s.cluster.raft ['b']).commitIndex = -1 ∧
      s.get ['a'] .leader ['k'] = some ⟨false,errWrongKey,valueError⟩) (by decide +kernel)
  obtain ⟨hlead,hlogs,hci,hother,hget⟩ := of_decide_eq_true hs
  exact ⟨s,_,_,hp,hlead,hlogs,rfl,hci,hother,hget,rfl,by decide⟩

end Threaded
end SRaftMuduo
