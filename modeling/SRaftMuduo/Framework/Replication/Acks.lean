import SRaftMuduo.Framework.Replication.Logs

namespace SRaftMuduo

namespace Replication

variable {N E : Type*} (Q : QuorumSystem N) (term : E → Nat)

/-- Entry number `k` of the log of term `t` was appended in term `t`. -/
def Firm (canon : Nat → List E) (t k : Nat) : Prop :=
  0 < k ∧ ∃ e, (canon t)[k-1]? = some e ∧ term e = t

/-- The list holds the first `k` entries of term `t`, or it ends in a later term. -/
def Covers (canon : Nat → List E) (logs : List E) (t k : Nat) : Prop :=
  (canon t).take k <+: logs ∨ ∃ e, logs.getLast? = some e ∧ t < term e

/-- The comparison of logs at a vote. -/
def UpToDate (candidate logs : List E) : Prop :=
  ∀ e, logs.getLast? = some e → ∃ e', candidate.getLast? = some e' ∧
    (term e < term e' ∨ term e = term e' ∧ logs.length ≤ candidate.length)

/-- The remaining conditions: votes go to logs that are up to date, and a node takes over
a log only of its current term, up to an entry of that term, and loses nothing by it. -/
def Acknowledges (g : Core N E) (l : Label N E) : Prop :=
  Writes Q term g l ∧
    match l with
    | .grant v c t => g.vote c t = some c ∧ UpToDate term (g.elect c t) (g.log v)
    | .accept v t k => g.cur v = t ∧ g.won t ≠ none ∧ Firm term g.canon t k ∧
        ¬((g.canon t).take k <+: g.log v ∧ k < (g.log v).length)
    | _ => True

structure Acks (g : Core N E) : Prop where
  log_term : ∀ v e, e ∈ g.log v → term e ≤ g.disk v
  canon_term : ∀ t e, e ∈ g.canon t → term e ≤ t
  voted : ∀ v t c, g.vote v t = some c → g.vote c t = some c
  elect : ∀ c t, g.vote c t = some c → PrefixOk term g.canon (g.elect c t)
  elect_term : ∀ c t, g.vote c t = some c → ∀ e ∈ g.elect c t, term e < t
  elect_canon : ∀ t c, g.won t = some c → g.vote c t = some c ∧ g.elect c t <+: g.canon t
  candidate : ∀ v, g.role v = .candidate → g.vote v (g.cur v) = some v →
    g.won (g.cur v) = none → g.log v = g.elect v (g.cur v)
  firm : ∀ v t, g.acked v t ≠ 0 → Firm term g.canon t (g.acked v t)
  acked_disk : ∀ v t, g.acked v t ≠ 0 → t ≤ g.disk v
  acked_log : ∀ v t, Covers term g.canon (g.log v) t (g.acked v t)
  acked_vote : ∀ v t t' c, g.vote v t' = some c → t < t' →
    Covers term g.canon (g.elect c t') t (g.acked v t)

section Lists

variable {term} {canon canon' : Nat → List E} {logs logs' : List E} {t k j : Nat}

theorem take_eq_of_le (h : logs <+: logs') (hk : k ≤ logs.length) :
    logs'.take k = logs.take k := by
  obtain ⟨rest,rfl⟩ := h
  exact List.take_append_of_le_length hk

theorem Firm.le_length (h : Firm term canon t k) : k ≤ (canon t).length := by
  obtain ⟨hk,e,he,-⟩ := h
  have hlt := (List.getElem?_eq_some_iff.mp he).1
  omega

theorem Firm.mono (h : Firm term canon t k) (hc : canon t <+: canon' t) :
    Firm term canon' t k := by
  obtain ⟨hk,e,he,ht⟩ := h
  obtain ⟨rest,hr⟩ := hc
  refine ⟨hk,e,?_,ht⟩
  rw [← hr,List.getElem?_append_left (List.getElem?_eq_some_iff.mp he).1]
  exact he

/-- What is firm among the first entries was so before the log grew. -/
theorem Firm.back (h : Firm term canon' t k) (hc : canon t <+: canon' t)
    (hk : k ≤ (canon t).length) : Firm term canon t k := by
  obtain ⟨h0,e,he,ht⟩ := h
  obtain ⟨rest,hr⟩ := hc
  refine ⟨h0,e,?_,ht⟩
  rwa [← hr,List.getElem?_append_left (by omega)] at he

theorem Covers.zero : Covers term canon logs t 0 := .inl (by simp)

theorem Covers.le (h : Covers term canon logs t k) (hj : j ≤ k) :
    Covers term canon logs t j := by
  rcases h with h | h
  · have htake : (canon t).take j = ((canon t).take k).take j := by
      rw [List.take_take,Nat.min_eq_left hj]
    exact .inl (htake ▸ (List.take_prefix _ _).trans h)
  · exact .inr h

theorem Covers.mono (h : Covers term canon logs t k) (hk : k ≤ (canon t).length)
    (hc : canon t <+: canon' t) : Covers term canon' logs t k := by
  rcases h with h | h
  · exact .inl (by rwa [take_eq_of_le hc hk])
  · exact .inr h

/-- A log that is up to date keeps what the voter covers. -/
theorem UpToDate.covers {candidate : List E} (h : UpToDate term candidate logs)
    (hl : PrefixOk term canon logs) (hc : PrefixOk term canon candidate)
    (hterm : ∀ s e, e ∈ canon s → term e ≤ s) (hf : Firm term canon t k)
    (hcov : Covers term canon logs t k) : Covers term canon candidate t k := by
  rcases hcov with hp | ⟨e,he,hlt⟩
  · obtain ⟨hk,x,hx,hxt⟩ := id hf
    have hlen := hf.le_length
    have hlong := hp.length_le
    rw [List.length_take,Nat.min_eq_left hlen] at hlong
    -- the voter's log holds entry `k` of term `t`, so it does not end before that term
    have hmem : x ∈ logs := by
      refine hp.subset (List.mem_of_getElem? (i := k-1) ?_)
      rw [List.getElem?_take,if_pos (by omega)]
      exact hx
    obtain ⟨e,he⟩ := Option.ne_none_iff_exists'.mp
      (mt List.getLast?_eq_none_iff.mp (List.ne_nil_of_mem hmem))
    have hle := hterm _ x ((hl.last he).subset hmem)
    obtain ⟨e',he',hlt | ⟨heq,hlong'⟩⟩ := h e he
    · exact .inr ⟨e',he',by omega⟩
    · by_cases hgt : t < term e'
      · exact .inr ⟨e',he',hgt⟩
      · have ht : term e' = t := by omega
        have hcand := hc.last he'
        rw [ht] at hcand
        refine .inl (List.prefix_of_prefix_length_le (List.take_prefix _ _) hcand ?_)
        rw [List.length_take]
        omega
  · obtain ⟨e',he',hlt' | ⟨heq,-⟩⟩ := h e he
    · exact .inr ⟨e',he',by omega⟩
    · exact .inr ⟨e',he',by omega⟩

/-- A list that covers entries of a term holds them when the later terms hold them. -/
theorem Covers.holds (h : Covers term canon logs t k) (hl : PrefixOk term canon logs)
    (hterm : ∀ s e, e ∈ canon s → term e ≤ s)
    (hlater : ∀ e ∈ logs, t < term e → (canon t).take k <+: canon (term e)) :
    (canon t).take k <+: logs := by
  rcases h with h | ⟨e,he,hlt⟩
  · exact h
  · have hmem := List.mem_of_getLast? he
    have hp := hlater e hmem hlt
    have hlast := hl.last he
    rcases Nat.le_total ((canon t).take k).length logs.length with hle | hle
    · exact List.prefix_of_prefix_length_le hp hlast hle
    · -- otherwise the last entry would be one of term `t` or before
      have hback := List.prefix_of_prefix_length_le hlast hp hle
      have hin := List.mem_of_mem_take (hback.subset hmem)
      have := hterm t e hin
      omega

end Lists

namespace Acks

variable {Q term} {g g' : Core N E}

theorem initial : Acks term (Core.initial : Core N E) := by
  refine ⟨?_,?_,?_,?_,?_,?_,?_,?_,?_,?_,?_⟩ <;> simp [Core.initial,Covers]

theorem acked_le (h : Acks term g) (v : N) (t : Nat) : g.acked v t ≤ (g.canon t).length := by
  by_cases h0 : g.acked v t = 0
  · omega
  · exact (h.firm v t h0).le_length

/-- Steps without a vote, a win or a change to a log. -/
theorem of_silent (h : Acks term g) (hlog : g'.log = g.log) (hcanon : g'.canon = g.canon)
    (hvote : g'.vote = g.vote) (helect : g'.elect = g.elect) (hwon : g'.won = g.won)
    (hacked : g'.acked = g.acked) (hdisk : ∀ v, g.disk v ≤ g'.disk v)
    (hcand : ∀ v, g'.role v = .candidate → g.vote v (g'.cur v) = some v →
      g.role v = .candidate ∧ g'.cur v = g.cur v) : Acks term g' := by
  refine ⟨?log_term,?canon_term,?voted,?elect,?elect_term,?elect_canon,?candidate,?firm,?acked_disk,
    ?acked_log,?acked_vote⟩
  case log_term =>
    intro v e he
    exact (h.log_term v e (hlog ▸ he)).trans (hdisk v)
  case canon_term =>
    rw [hcanon]
    exact h.canon_term
  case voted =>
    rw [hvote]
    exact h.voted
  case elect =>
    rw [hvote,helect,hcanon]
    exact h.elect
  case elect_term =>
    rw [hvote,helect]
    exact h.elect_term
  case elect_canon =>
    rw [hwon,hvote,helect,hcanon]
    exact h.elect_canon
  case candidate =>
    intro v hr hv hw
    rw [hvote] at hv
    obtain ⟨hr,hc⟩ := hcand v hr hv
    rw [hc] at hv
    rw [hwon,hc] at hw
    rw [hlog,helect,hc]
    exact h.candidate v hr hv hw
  case firm =>
    rw [hacked,hcanon]
    exact h.firm
  case acked_disk =>
    intro v t ha
    exact (h.acked_disk v t (hacked ▸ ha)).trans (hdisk v)
  case acked_log =>
    rw [hacked,hcanon,hlog]
    exact h.acked_log
  case acked_vote =>
    rw [hacked,hcanon,helect,hvote]
    exact h.acked_vote

variable [DecidableEq N]

theorem campaign (h : Acks term g) (he : Elections Q g) (hl : Logs term g) (v : N) :
    Acks term (g.apply (.campaign v)) := by
  have hdv := he.disk_le v
  have hnew : ∀ u c, g.vote u (g.cur v+1) = some c → c ≠ v := by
    rintro u c hv rfl
    have hle := he.vote_le _ _ _ (h.voted u _ _ hv)
    omega
  have hdisk := he.disk_grow (l := .campaign v) trivial
  -- a vote in the new state is the new one, or an old one for a log that is still there
  have hcases : ∀ u t c, (g.apply (.campaign v)).vote u t = some c →
      (u = v ∧ t = g.cur v+1 ∧ c = v ∧ (g.apply (.campaign v)).elect c t = g.log v) ∨
      (g.vote u t = some c ∧ (g.apply (.campaign v)).elect c t = g.elect c t) := by
    intro u t c hv
    simp only [Core.apply,update₂_apply] at hv ⊢
    split_ifs at hv with huv
    · obtain ⟨rfl,rfl⟩ := huv
      obtain rfl := Option.some.inj hv
      exact .inl ⟨rfl,rfl,rfl,if_pos ⟨rfl,rfl⟩⟩
    · refine .inr ⟨hv,if_neg ?_⟩
      rintro ⟨rfl,rfl⟩
      exact hnew u _ hv rfl
  have hkeep := (he.grow (l := .campaign v) trivial).vote
  refine ⟨?log_term,h.canon_term,?voted,?elect,?elect_term,?elect_canon,?candidate,h.firm,
    ?acked_disk,h.acked_log,?acked_vote⟩
  case log_term =>
    intro u e hmem
    exact (h.log_term u e hmem).trans (hdisk u)
  case voted =>
    intro u t c hv
    rcases hcases u t c hv with ⟨rfl,rfl,rfl,-⟩ | ⟨hv,-⟩
    · simp [Core.apply]
    · exact hkeep _ _ _ (h.voted u t c hv)
  case elect =>
    intro c t hv
    rcases hcases c t c hv with ⟨-,-,-,hlog⟩ | ⟨hv,hlog⟩ <;> rw [hlog]
    · exact hl.log v
    · exact h.elect c t hv
  case elect_term =>
    intro c t hv e hmem
    rcases hcases c t c hv with ⟨-,rfl,-,hlog⟩ | ⟨hv,hlog⟩ <;> rw [hlog] at hmem
    · have := h.log_term v e hmem
      omega
    · exact h.elect_term c t hv e hmem
  case elect_canon =>
    intro t c hw
    obtain ⟨hv,hp⟩ := h.elect_canon t c hw
    rcases hcases c t c (hkeep _ _ _ hv) with ⟨rfl,rfl,-,-⟩ | ⟨-,hlog⟩
    · exact absurd rfl (hnew _ _ hv)
    · exact ⟨hkeep _ _ _ hv,by rw [hlog]; exact hp⟩
  case candidate =>
    intro u hr hv hw
    by_cases hu : u = v
    · subst hu
      simp [Core.apply]
    · have hr : g.role u = .candidate := by simpa [Core.apply,hu] using hr
      have hcur : (g.apply (.campaign v)).cur u = g.cur u := by simp [Core.apply,hu]
      rw [hcur] at hv hw ⊢
      rcases hcases _ _ _ hv with ⟨rfl,-⟩ | ⟨hv,hlog⟩
      · exact absurd rfl hu
      · rw [hlog]
        exact h.candidate u hr hv hw
  case acked_disk =>
    intro u t ha
    exact (h.acked_disk u t ha).trans (hdisk u)
  case acked_vote =>
    intro u t t' c hv ht
    rcases hcases u t' c hv with ⟨rfl,-,-,hlog⟩ | ⟨hv,hlog⟩ <;> rw [hlog]
    · exact h.acked_log u t
    · exact h.acked_vote u t t' c hv ht

theorem grant (h : Acks term g) (he : Elections Q g) (hl : Logs term g) {v c : N} {t : Nat}
    (hok : Acknowledges Q term g (.grant v c t)) : Acks term (g.apply (.grant v c t)) := by
  obtain ⟨⟨hlt,-⟩,hself,hup⟩ := id hok
  have hlt : g.cur v < t := hlt
  have hdv := he.disk_le v
  have hdisk := he.disk_grow hok.1.1
  have hcases : ∀ u s x, (g.apply (.grant v c t)).vote u s = some x →
      (u = v ∧ s = t ∧ x = c) ∨ g.vote u s = some x := by
    intro u s x hv
    simp only [Core.apply,update₂_apply] at hv
    split_ifs at hv with huv
    · exact .inl ⟨huv.1,huv.2,(Option.some.inj hv).symm⟩
    · exact .inr hv
  have hkeep := (he.grow hok.1.1).vote
  -- a vote for oneself is an old one: the voter enters the term, the candidate is in it
  have hold : ∀ u s, (g.apply (.grant v c t)).vote u s = some u → g.vote u s = some u := by
    intro u s hv
    rcases hcases u s u hv with ⟨rfl,rfl,rfl⟩ | hv
    · exact hself
    · exact hv
  refine ⟨?log_term,h.canon_term,?voted,?elect,?elect_term,?elect_canon,?candidate,h.firm,
    ?acked_disk,h.acked_log,?acked_vote⟩
  case log_term =>
    intro u e hmem
    exact (h.log_term u e hmem).trans (hdisk u)
  case voted =>
    intro u s x hv
    rcases hcases u s x hv with ⟨-,rfl,rfl⟩ | hv
    · exact hkeep _ _ _ hself
    · exact hkeep _ _ _ (h.voted u s x hv)
  case elect =>
    intro x s hv
    exact h.elect x s (hold x s hv)
  case elect_term =>
    intro x s hv
    exact h.elect_term x s (hold x s hv)
  case elect_canon =>
    intro s x hw
    obtain ⟨hv,hp⟩ := h.elect_canon s x hw
    exact ⟨hkeep _ _ _ hv,hp⟩
  case candidate =>
    intro u hr hv hw
    by_cases hu : u = v
    · subst hu
      have hcur : (g.apply (.grant u c t)).cur u = t := by simp [Core.apply]
      have hv := hold _ _ hv
      rw [hcur,he.vote_none hlt] at hv
      exact absurd hv (by simp)
    · have hr : g.role u = .candidate := by simpa [Core.apply,hu] using hr
      have hcur : (g.apply (.grant v c t)).cur u = g.cur u := by simp [Core.apply,hu]
      have hv := hold _ _ hv
      rw [hcur] at hv hw ⊢
      exact h.candidate u hr hv hw
  case acked_disk =>
    intro u s ha
    exact (h.acked_disk u s ha).trans (hdisk u)
  case acked_vote =>
    intro u s s' x hv hs
    rcases hcases u s' x hv with ⟨rfl,rfl,rfl⟩ | hv
    · by_cases h0 : g.acked u s = 0
      · have hz : (g.apply (.grant u x s')).acked u s = 0 := h0
        rw [hz]
        exact .zero
      · exact hup.covers (hl.log u) (h.elect x s' hself) h.canon_term (h.firm u s h0)
          (h.acked_log u s)
    · exact h.acked_vote u s s' x hv hs

theorem win (h : Acks term g) (he : Elections Q g) (hl : Logs term g) {v : N}
    (hok : Acknowledges Q term g (.win v)) : Acks term (g.apply (.win v)) := by
  have hnone := he.won_none hok.1.1
  have hgrow := hl.canon_grow he hok.1
  obtain ⟨⟨⟨hrole,hself,-⟩,-⟩,-⟩ := hok
  have hlog := h.candidate v hrole hself hnone
  refine ⟨h.log_term,?canon_term,h.voted,?elect,h.elect_term,?elect_canon,?candidate,?firm,
    h.acked_disk,?acked_log,?acked_vote⟩
  case canon_term =>
    intro t e hmem
    by_cases ht : t = g.cur v
    · subst ht
      have hmem : e ∈ g.log v := by simpa [Core.apply] using hmem
      rw [hlog] at hmem
      exact (h.elect_term v _ hself e hmem).le
    · exact h.canon_term t e (by simpa [Core.apply,ht] using hmem)
  case elect =>
    intro c t hv
    exact (h.elect c t hv).mono hgrow
  case elect_canon =>
    intro t c hw
    by_cases ht : t = g.cur v
    · subst ht
      obtain rfl : v = c := by simpa [Core.apply] using hw
      refine ⟨hself,?_⟩
      simp [Core.apply,hlog]
    · obtain ⟨hv,hp⟩ := h.elect_canon t c (by simpa [Core.apply,ht] using hw)
      exact ⟨hv,hp.trans (hgrow t)⟩
  case candidate =>
    intro u hr hv hw
    have hu : u ≠ v := by
      rintro rfl
      exact absurd hr (by simp [Core.apply])
    have ht : g.cur u ≠ g.cur v := by
      intro ht
      exact absurd hw (by simp [Core.apply,ht])
    exact h.candidate u (by simpa [Core.apply,hu] using hr) hv
      (by simpa [Core.apply,ht] using hw)
  case firm =>
    intro u t ha
    exact (h.firm u t ha).mono (hgrow t)
  case acked_log =>
    intro u t
    exact (h.acked_log u t).mono (h.acked_le u t) (hgrow t)
  case acked_vote =>
    intro u t t' c hv ht
    exact (h.acked_vote u t t' c hv ht).mono (h.acked_le u t) (hgrow t)

theorem append (h : Acks term g) (he : Elections Q g) (hl : Logs term g) {v : N} {e : E}
    (hok : Acknowledges Q term g (.append v e)) : Acks term (g.apply (.append v e)) := by
  have hgrow := hl.canon_grow he hok.1
  have hdisk := he.disk_grow hok.1.1
  obtain ⟨⟨-,hrole,hterm⟩,-⟩ := hok
  have hdv := he.disk_le v
  have hlead := hl.leader v hrole
  have hlog : (g.apply (.append v e)).log v = g.log v++[e] := by simp [Core.apply]
  have hcanon : (g.apply (.append v e)).canon (g.cur v) = g.log v++[e] := by
    simp [Core.apply]
  have hacked : (g.apply (.append v e)).acked v (g.cur v) = (g.log v).length+1 := by
    simp [Core.apply]
  have hothers : ∀ u t, ¬(u = v ∧ t = g.cur v) →
      (g.apply (.append v e)).acked u t = g.acked u t := by
    intro u t hut
    simp only [Core.apply,update₂_apply,if_neg hut]
  have hdiskv : (g.apply (.append v e)).disk v = g.cur v := by simp [Core.apply]
  refine ⟨?log_term,?canon_term,h.voted,?elect,h.elect_term,?elect_canon,?candidate,?firm,
    ?acked_disk,?acked_log,?acked_vote⟩
  case log_term =>
    intro u x hmem
    by_cases hu : u = v
    · subst hu
      rw [hlog] at hmem
      rw [hdiskv]
      rcases List.mem_append.mp hmem with hmem | hmem
      · exact (h.log_term u x hmem).trans hdv
      · obtain rfl := List.mem_singleton.mp hmem
        exact hterm.le
    · have hmem : x ∈ g.log u := by simpa [Core.apply,hu] using hmem
      exact (h.log_term u x hmem).trans (hdisk u)
  case canon_term =>
    intro t x hmem
    by_cases ht : t = g.cur v
    · subst ht
      rw [hcanon] at hmem
      rcases List.mem_append.mp hmem with hmem | hmem
      · exact h.canon_term _ x (hlead ▸ hmem)
      · obtain rfl := List.mem_singleton.mp hmem
        exact hterm.le
    · exact h.canon_term t x (by simpa [Core.apply,ht] using hmem)
  case elect =>
    intro c t hv
    exact (h.elect c t hv).mono hgrow
  case elect_canon =>
    intro t c hw
    obtain ⟨hv,hp⟩ := h.elect_canon t c hw
    exact ⟨hv,hp.trans (hgrow t)⟩
  case candidate =>
    intro u hr hv hw
    have hu : u ≠ v := by
      rintro rfl
      exact absurd (hrole.symm.trans hr) (by decide)
    have hsame := h.candidate u hr hv hw
    simpa [Core.apply,hu] using hsame
  case firm =>
    intro u t ha
    by_cases hut : u = v ∧ t = g.cur v
    · obtain ⟨rfl,rfl⟩ := hut
      rw [hacked]
      refine ⟨by omega,e,?_,hterm⟩
      rw [hcanon]
      simp
    · rw [hothers u t hut] at ha ⊢
      exact (h.firm u t ha).mono (hgrow t)
  case acked_disk =>
    intro u t ha
    by_cases hut : u = v ∧ t = g.cur v
    · obtain ⟨rfl,rfl⟩ := hut
      exact hdiskv.ge
    · rw [hothers u t hut] at ha
      exact (h.acked_disk u t ha).trans (hdisk u)
  case acked_log =>
    intro u t
    by_cases hut : u = v ∧ t = g.cur v
    · obtain ⟨rfl,rfl⟩ := hut
      left
      rw [hlog,hcanon]
      exact List.take_prefix _ _
    · rw [hothers u t hut]
      have hcov := (h.acked_log u t).mono (h.acked_le u t) (hgrow t)
      by_cases hu : u = v
      · subst hu
        rw [hlog]
        rcases hcov with hp | ⟨x,hx,hlt⟩
        · exact .inl (hp.trans (List.prefix_append _ _))
        · have := h.log_term u x (List.mem_of_getLast? hx)
          exact .inr ⟨e,by simp,by omega⟩
      · simpa [Core.apply,hu] using hcov
  case acked_vote =>
    intro u t t' c hv ht
    have hut : ¬(u = v ∧ t = g.cur v) := by
      rintro ⟨rfl,rfl⟩
      have := he.vote_le u t' c hv
      omega
    rw [hothers u t hut]
    exact (h.acked_vote u t t' c hv ht).mono (h.acked_le u t) (hgrow t)

theorem accept (h : Acks term g) (he : Elections Q g) {v : N} {t k : Nat}
    (hok : Acknowledges Q term g (.accept v t k)) : Acks term (g.apply (.accept v t k)) := by
  have hdisk := he.disk_grow hok.1.1
  obtain ⟨-,rfl,hwon,hfirm,-⟩ := hok
  have hdv := he.disk_le v
  have hlog : (g.apply (.accept v (g.cur v) k)).log v = (g.canon (g.cur v)).take k := by
    simp [Core.apply]
  have hothers : ∀ u s, ¬(u = v ∧ s = g.cur v) →
      (g.apply (.accept v (g.cur v) k)).acked u s = g.acked u s := by
    intro u s hus
    simp only [Core.apply,update₂_apply,if_neg hus]
  have hacked : (g.apply (.accept v (g.cur v) k)).acked v (g.cur v) = k := by
    simp [Core.apply]
  have hdiskv : (g.apply (.accept v (g.cur v) k)).disk v = g.cur v := by simp [Core.apply]
  refine ⟨?log_term,h.canon_term,h.voted,h.elect,h.elect_term,h.elect_canon,?candidate,?firm,
    ?acked_disk,?acked_log,?acked_vote⟩
  case log_term =>
    intro u x hmem
    by_cases hu : u = v
    · subst hu
      rw [hlog] at hmem
      rw [hdiskv]
      exact h.canon_term _ x (List.mem_of_mem_take hmem)
    · have hmem : x ∈ g.log u := by simpa [Core.apply,hu] using hmem
      exact (h.log_term u x hmem).trans (hdisk u)
  case candidate =>
    intro u hr hv hw
    have hu : u ≠ v := by
      rintro rfl
      exact hwon hw
    have hsame := h.candidate u hr hv hw
    simpa [Core.apply,hu] using hsame
  case firm =>
    intro u s ha
    by_cases hus : u = v ∧ s = g.cur v
    · obtain ⟨rfl,rfl⟩ := hus
      rw [hacked]
      exact hfirm
    · rw [hothers u s hus] at ha ⊢
      exact h.firm u s ha
  case acked_disk =>
    intro u s ha
    by_cases hus : u = v ∧ s = g.cur v
    · obtain ⟨rfl,rfl⟩ := hus
      exact hdiskv.ge
    · rw [hothers u s hus] at ha
      exact (h.acked_disk u s ha).trans (hdisk u)
  case acked_log =>
    intro u s
    by_cases hus : u = v ∧ s = g.cur v
    · obtain ⟨rfl,rfl⟩ := hus
      left
      rw [hlog,hacked]
      exact List.prefix_rfl
    · rw [hothers u s hus]
      by_cases hu : u = v
      · subst hu
        rw [hlog]
        have hs : s ≠ g.cur u := fun hs => hus ⟨rfl,hs⟩
        by_cases h0 : g.acked u s = 0
        · rw [h0]
          exact .zero
        -- what was taken over in an earlier term is covered by the later end
        · have hle := h.acked_disk u s h0
          obtain ⟨hk,x,hx,hxt⟩ := id hfirm
          refine .inr ⟨x,?_,by omega⟩
          rw [List.getLast?_eq_getElem?,List.length_take,
            Nat.min_eq_left hfirm.le_length,List.getElem?_take,if_pos (by omega)]
          exact hx
      · have hcov := h.acked_log u s
        simpa [Core.apply,hu] using hcov
  case acked_vote =>
    intro u s s' c hv hs
    have hus : ¬(u = v ∧ s = g.cur v) := by
      rintro ⟨rfl,rfl⟩
      have := he.vote_le u s' c hv
      omega
    rw [hothers u s hus]
    exact h.acked_vote u s s' c hv hs

theorem step (h : Acks term g) (he : Elections Q g) (hl : Logs term g) {l : Label N E}
    (hok : Acknowledges Q term g l) : Acks term (g.apply l) := by
  have hdisk := he.disk_grow hok.1.1
  cases l with
  | campaign v => exact h.campaign he hl v
  | grant v c t => exact h.grant he hl hok
  | win v => exact h.win he hl hok
  | append v e => exact h.append he hl hok
  | accept v t k => exact h.accept he hok
  | raise v t =>
    obtain ⟨⟨⟨hlt,-⟩,-⟩,-⟩ := hok
    refine h.of_silent rfl rfl rfl rfl rfl rfl (fun _ => le_refl _) ?_
    intro u hr hv
    by_cases hu : u = v
    · subst hu
      have hcur : (g.apply (.raise u t)).cur u = t := by simp [Core.apply]
      rw [hcur,he.vote_none hlt] at hv
      exact absurd hv (by simp)
    · exact ⟨hr,by simp [Core.apply,hu]⟩
  | follow v t d =>
    refine h.of_silent rfl rfl rfl rfl rfl rfl hdisk ?_
    intro u hr _
    by_cases hu : u = v
    · subst hu
      exact absurd hr (by simp [Core.apply])
    · exact ⟨by simpa [Core.apply,hu] using hr,by simp [Core.apply,hu]⟩
  | save v =>
    exact h.of_silent rfl rfl rfl rfl rfl rfl hdisk fun u hr _ => ⟨hr,rfl⟩
  | restart v =>
    refine h.of_silent rfl rfl rfl rfl rfl rfl (fun _ => le_refl _) ?_
    intro u hr _
    by_cases hu : u = v
    · subst hu
      exact absurd hr (by simp [Core.apply])
    · exact ⟨by simpa [Core.apply,hu] using hr,by simp [Core.apply,hu]⟩

/-- What a node has taken over of a term only grows. -/
theorem acked_grow (h : Acks term g) (he : Elections Q g) (hl : Logs term g)
    {l : Label N E} (hok : Acknowledges Q term g l) (v : N) (t : Nat) :
    g.acked v t ≤ (g.apply l).acked v t := by
  have hle := h.acked_le v t
  cases l with
  | append u e =>
    obtain ⟨⟨-,hrole,-⟩,-⟩ := hok
    simp only [Core.apply,update₂_apply]
    split_ifs with hut
    · obtain ⟨rfl,rfl⟩ := hut
      rw [hl.leader _ hrole]
      omega
    · exact le_refl _
  | accept u s k =>
    obtain ⟨-,hcur,-,hfirm,hlost⟩ := hok
    simp only [Core.apply,update₂_apply]
    split_ifs with hut
    · obtain ⟨rfl,rfl⟩ := hut
      by_contra hlt
      rcases h.acked_log v t with hp | ⟨x,hx,hgt⟩
      · have htake : (g.canon t).take k <+: (g.canon t).take (g.acked v t) := by
          have hmin : (g.canon t).take k = ((g.canon t).take (g.acked v t)).take k := by
            rw [List.take_take,Nat.min_eq_left (by omega)]
          exact hmin ▸ List.take_prefix _ _
        have hlen := hp.length_le
        rw [List.length_take,Nat.min_eq_left hle] at hlen
        exact hlost ⟨htake.trans hp,by omega⟩
      · have hterm := h.log_term v x (List.mem_of_getLast? hx)
        have := he.disk_le v
        omega
    · exact le_refl _
  | _ => exact le_refl _

end Acks

/-- A new leader has no entry of its term yet. -/
theorem Logs.not_firm_win [DecidableEq N] {Q : QuorumSystem N} {term : E → Nat} {g : Core N E}
    (hl : Logs term g) (he : Elections Q g) {v : N} (hok : Votes Q g (.win v)) {k : Nat} :
    ¬Firm term (g.apply (.win v)).canon (g.cur v) k := by
  rintro ⟨-,e,hx,hterm⟩
  have hmem : e ∈ g.log v := by
    refine List.mem_of_getElem? (i := k-1) ?_
    simpa [Core.apply] using hx
  obtain ⟨c,hw⟩ := hl.won_of_mem (hl.log v) hmem
  rw [hterm,he.won_none hok] at hw
  exact absurd hw (by simp)

/-- The winner of a term has taken over what it appended in it. -/
def Owned (g : Core N E) : Prop :=
  ∀ t c k, g.won t = some c → Firm term g.canon t k → k ≤ g.acked c t

theorem Owned.initial : Owned term (Core.initial : Core N E) := by
  intro t c k hw
  exact absurd hw (by simp [Core.initial])

theorem Owned.step [DecidableEq N] {Q : QuorumSystem N} {term : E → Nat} {g : Core N E}
    (h : Owned term g) (ha : Acks term g) (he : Elections Q g) (hl : Logs term g)
    {l : Label N E} (hok : Acknowledges Q term g l) : Owned term (g.apply l) := by
  intro t c k hw hf
  have hgrow := ha.acked_grow he hl hok c t
  cases l with
  | win v =>
    by_cases ht : t = g.cur v
    · subst ht
      exact absurd hf (hl.not_firm_win he hok.1.1)
    · have hw : g.won t = some c := by simpa [Core.apply,ht] using hw
      have hsame : (g.apply (.win v)).canon t = g.canon t := by simp [Core.apply,ht]
      unfold Firm at hf
      rw [hsame] at hf
      exact (h t c k hw hf).trans hgrow
  | append v e =>
    by_cases ht : t = g.cur v
    · subst ht
      have hw : g.won (g.cur v) = some c := hw
      rw [he.leader v hok.1.2.1] at hw
      obtain rfl := Option.some.inj hw
      have hlen := hf.le_length
      simpa [Core.apply] using hlen
    · have hsame : (g.apply (.append v e)).canon t = g.canon t := by simp [Core.apply,ht]
      unfold Firm at hf
      rw [hsame] at hf
      exact (h t c k hw hf).trans hgrow
  | _ => exact (h t c k hw hf).trans hgrow

/-- The log a node campaigned with stays on record. -/
theorem Elections.elect_keep [DecidableEq N] {Q : QuorumSystem N} {g : Core N E}
    (he : Elections Q g) {l : Label N E} {c : N} {t : Nat}
    (hv : g.vote c t = some c) : (g.apply l).elect c t = g.elect c t := by
  cases l with
  | campaign v =>
    have hne : ¬(c = v ∧ t = g.cur v+1) := by
      rintro ⟨rfl,rfl⟩
      have hle := he.vote_le _ _ _ hv
      have hd := he.disk_le c
      omega
    simp only [Core.apply,update₂_apply,if_neg hne]
  | _ => rfl

/-- The three invariants together. -/
structure Sound (g : Core N E) : Prop where
  elections : Elections Q g
  logs : Logs term g
  acks : Acks term g

/-- The history of a run only grows. -/
structure Grows (g g' : Core N E) : Prop where
  votes : VotesGrow g g'
  canon : ∀ t, g.canon t <+: g'.canon t
  acked : ∀ v t, g.acked v t ≤ g'.acked v t
  elect : ∀ c t, g.vote c t = some c → g'.elect c t = g.elect c t

theorem Grows.refl (g : Core N E) : Grows g g :=
  ⟨.refl g,fun _ => List.prefix_rfl,fun _ _ => le_refl _,fun _ _ _ => rfl⟩

theorem Grows.trans {g g' g'' : Core N E} (h : Grows g g') (k : Grows g' g'') :
    Grows g g'' :=
  ⟨h.votes.trans k.votes,fun t => (h.canon t).trans (k.canon t),
    fun v t => (h.acked v t).trans (k.acked v t),
    fun c t hv => (k.elect c t (h.votes.vote c t c hv)).trans (h.elect c t hv)⟩

namespace Sound

variable {Q term} {g g' : Core N E}

theorem path [DecidableEq N] (hp : (replication N E).Path (Acknowledges Q term) g g')
    (h : Sound Q term g) : Sound Q term g' ∧ Grows g g' := by
  refine hp.invariant (I := fun x => Sound Q term x ∧ Grows g x) ?_ ⟨h,.refl g⟩
  rintro x l y ⟨hx,hg⟩ hok hs
  obtain rfl := Option.some.inj hs
  refine ⟨⟨hx.elections.step hok.1.1,hx.logs.step hx.elections hok.1,
    hx.acks.step hx.elections hx.logs hok⟩,hg.trans ⟨hx.elections.grow hok.1.1,?_,?_,?_⟩⟩
  · exact hx.logs.canon_grow hx.elections hok.1
  · exact hx.acks.acked_grow hx.elections hx.logs hok
  · intro c t hv
    exact hx.elections.elect_keep hv

end Sound

section Silent

variable [DecidableEq N] {Q} {g : Core N E}

theorem Allowed.acknowledges {ls : List (Label N E)} (h : Allowed (Writes Q term) g ls)
    (hs : ∀ l ∈ ls, l.answers = false) : Allowed (Acknowledges Q term) g ls := by
  induction ls generalizing g with
  | nil => exact trivial
  | cons l ls ih =>
    have hl := hs l List.mem_cons_self
    refine ⟨⟨h.1,?_⟩,ih h.2 (fun x hx => hs x (List.mem_cons_of_mem _ hx))⟩
    cases l <;> trivial

/-- The invariants of the history along a run. -/
theorem Sound.path_owned {g' : Core N E} (hp : (replication N E).Path (Acknowledges Q term) g g')
    (h : Sound Q term g) (ho : Owned term g) : Owned term g' := by
  have hall := hp.invariant (I := fun x => Sound Q term x ∧ Owned term x) ?_ ⟨h,ho⟩
  · exact hall.2
  · rintro x l y ⟨hx,hox⟩ hok hs
    have hnext := (hx.path ((Machine.Path.refl x).tail hok hs)).1
    obtain rfl := Option.some.inj hs
    exact ⟨hnext,hox.step hx.acks hx.elections hx.logs hok⟩

end Silent

/-- A quorum has taken over the first `k` entries of term `t`, the last of them an entry
of that term. -/
def Committed (g : Core N E) (t k : Nat) : Prop :=
  Firm term g.canon t k ∧ Q.IsQuorum {v | k ≤ g.acked v t}

namespace Committed

variable {Q term} {g g' : Core N E} {t t' k k' : Nat}

theorem mono (h : Committed Q term g t k) (hg : Grows g g') : Committed Q term g' t k :=
  ⟨h.1.mono (hg.canon t),Q.mono (fun v hv => le_trans hv (hg.acked v t)) h.2⟩

/-- The winner of a later term has in its log what a quorum has taken over. -/
theorem leader_complete (h : Committed Q term g t k) (hs : Sound Q term g) :
    ∀ t' c, t < t' → g.won t' = some c → (g.canon t).take k <+: g.canon t' := by
  intro t'
  induction t' using Nat.strong_induction_on with
  | _ t' ih =>
    intro c hlt hwon
    obtain ⟨hself,hpre⟩ := hs.acks.elect_canon t' c hwon
    -- one node both took the entries over and voted for the winner
    obtain ⟨v,hv,hvote⟩ := Q.inter h.2 (hs.elections.won_vote t' c hwon)
    have hcov := (hs.acks.acked_vote v t t' c hvote hlt).le hv
    refine (hcov.holds (hs.acks.elect c t' hself) hs.acks.canon_term ?_).trans hpre
    intro e hmem hgt
    have hterm := hs.acks.elect_term c t' hself e hmem
    obtain ⟨c',hw⟩ := hs.logs.won_of_mem (hs.acks.elect c t' hself) hmem
    exact ih _ hterm c' hgt hw

theorem won (h : Committed Q term g t k) (hs : Sound Q term g) : ∃ c, g.won t = some c := by
  obtain ⟨⟨-,e,he,ht⟩,-⟩ := h
  exact ht ▸ hs.logs.won_of_mem (hs.logs.canon t) (List.mem_of_getElem? he)

/-- A node that has taken them over keeps them. -/
theorem retained (h : Committed Q term g t k) (hs : Sound Q term g) {v : N}
    (hv : k ≤ g.acked v t) : (g.canon t).take k <+: g.log v := by
  refine ((hs.acks.acked_log v t).le hv).holds (hs.logs.log v) hs.acks.canon_term ?_
  intro e hmem hgt
  obtain ⟨c,hw⟩ := hs.logs.won_of_mem (hs.logs.log v) hmem
  exact h.leader_complete hs _ c hgt hw

/-- What is committed in two terms agrees. -/
theorem agree (h : Committed Q term g t k) (h' : Committed Q term g t' k')
    (hs : Sound Q term g) {i : Nat} (hi : i < k) (hi' : i < k') :
    (g.canon t)[i]? = (g.canon t')[i]? := by
  have hlt : ∀ {s s' j j'}, Committed Q term g s j → Committed Q term g s' j' → s < s' →
      i < j → (g.canon s)[i]? = (g.canon s')[i]? := by
    intro s s' j j' hc hc' hss hij
    obtain ⟨c,hw⟩ := hc'.won hs
    obtain ⟨rest,hr⟩ := hc.leader_complete hs s' c hss hw
    have hlen := hc.1.le_length
    rw [← hr,List.getElem?_append_left (by rw [List.length_take]; omega),
      List.getElem?_take,if_pos hij]
  rcases Nat.lt_trichotomy t t' with hlt' | rfl | hgt
  · exact hlt h h' hlt' hi
  · rfl
  · exact (hlt h' h hgt hi').symm

end Committed

end Replication

end SRaftMuduo
