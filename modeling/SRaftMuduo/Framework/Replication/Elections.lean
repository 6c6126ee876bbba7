import SRaftMuduo.Framework.Replication.Core

namespace SRaftMuduo

namespace Replication

variable {N E : Type*} (Q : QuorumSystem N)

/-- What keeps the leader of a term unique: votes are given on entering a term, a leader
never goes to another term, and a candidate wins with a quorum of votes of its term. -/
def Votes (g : Core N E) : Label N E → Prop
  | .grant v _ t => g.cur v < t
  | .raise v t => g.cur v < t ∧ g.role v ≠ .leader
  | .follow v t d => g.cur v ≤ t ∧ g.disk v ≤ d ∧ d ≤ g.cur v
  | .win v => g.role v = .candidate ∧ g.vote v (g.cur v) = some v ∧
      Q.IsQuorum {u | g.vote u (g.cur v) = some v}
  | _ => True

structure Elections (g : Core N E) : Prop where
  disk_le : ∀ v, g.disk v ≤ g.cur v
  vote_le : ∀ v t c, g.vote v t = some c → t ≤ g.disk v
  won_vote : ∀ t c, g.won t = some c → Q.IsQuorum {u | g.vote u t = some c}
  won_le : ∀ t c, g.won t = some c → t ≤ g.disk c
  leader : ∀ v, g.role v = .leader → g.won (g.cur v) = some v
  candidate : ∀ v, g.role v = .candidate → g.won (g.cur v) ≠ some v

/-- Votes and wins are never taken back. -/
structure VotesGrow (g g' : Core N E) : Prop where
  vote : ∀ v t c, g.vote v t = some c → g'.vote v t = some c
  won : ∀ t c, g.won t = some c → g'.won t = some c

theorem VotesGrow.refl (g : Core N E) : VotesGrow g g := ⟨fun _ _ _ h => h,fun _ _ h => h⟩

theorem VotesGrow.trans {g g' g'' : Core N E} (h : VotesGrow g g') (k : VotesGrow g' g'') :
    VotesGrow g g'' :=
  ⟨fun v t c hv => k.vote v t c (h.vote v t c hv),fun t c hw => k.won t c (h.won t c hw)⟩

namespace Elections

variable {Q} {g g' : Core N E}

theorem initial : Elections Q (Core.initial : Core N E) := by
  refine ⟨?_,?_,?_,?_,?_,?_⟩ <;> simp [Core.initial]

/-- Steps without a vote or a win, which touch one node. -/
theorem of_local (h : Elections Q g) (v : N) (hother : ∀ u, u ≠ v →
      g'.role u = g.role u ∧ g'.cur u = g.cur u ∧ g'.disk u = g.disk u)
    (hvote : g'.vote = g.vote) (hwon : g'.won = g.won)
    (hdisk : g.disk v ≤ g'.disk v) (hcur : g'.disk v ≤ g'.cur v)
    (hleader : g'.role v = .leader → g.role v = .leader ∧ g'.cur v = g.cur v)
    (hcand : g'.role v = .candidate → g.role v = .candidate ∧ g.cur v ≤ g'.cur v) :
    Elections Q g' := by
  have hd : ∀ u, g.disk u ≤ g'.disk u := by
    intro u
    by_cases hu : u = v
    · exact hu ▸ hdisk
    · exact (hother u hu).2.2.ge
  refine ⟨?disk_le,?vote_le,?won_vote,?won_le,?leader,?candidate⟩
  case disk_le =>
    intro u
    by_cases hu : u = v
    · exact hu ▸ hcur
    · obtain ⟨-,hc,hd⟩ := hother u hu
      rw [hc,hd]
      exact h.disk_le u
  case vote_le =>
    intro u t c hv
    rw [hvote] at hv
    exact (h.vote_le u t c hv).trans (hd u)
  case won_vote =>
    intro t c hw
    rw [hwon] at hw
    rw [hvote]
    exact h.won_vote t c hw
  case won_le =>
    intro t c hw
    rw [hwon] at hw
    exact (h.won_le t c hw).trans (hd c)
  case leader =>
    intro u hr
    rw [hwon]
    by_cases hu : u = v
    · subst hu
      obtain ⟨hr,hc⟩ := hleader hr
      rw [hc]
      exact h.leader u hr
    · obtain ⟨hr',hc,-⟩ := hother u hu
      rw [hc]
      exact h.leader u (hr' ▸ hr)
  case candidate =>
    intro u hr
    rw [hwon]
    by_cases hu : u = v
    · subst hu
      obtain ⟨hr,hc⟩ := hcand hr
      intro hw
      have hle := h.won_le _ _ hw
      have hdu := h.disk_le u
      have heq : g'.cur u = g.cur u := by omega
      exact h.candidate u hr (heq ▸ hw)
    · obtain ⟨hr',hc,-⟩ := hother u hu
      rw [hc]
      exact h.candidate u (hr' ▸ hr)

/-- A vote given on entering a term was not given before. -/
theorem vote_none (h : Elections Q g) {v : N} {t : Nat} (ht : g.cur v < t) :
    g.vote v t = none := by
  cases hv : g.vote v t with
  | none => rfl
  | some c =>
    have hle := h.vote_le v t c hv
    have hd := h.disk_le v
    omega

/-- The winner of a term is unique, so a candidate that wins is its first winner. -/
theorem won_none (h : Elections Q g) {v : N} (hok : Votes Q g (.win v)) :
    g.won (g.cur v) = none := by
  obtain ⟨hrole,-,hq⟩ := hok
  cases hw : g.won (g.cur v) with
  | none => rfl
  | some c =>
    obtain ⟨u,hu,hu'⟩ := Q.inter hq (h.won_vote _ _ hw)
    obtain rfl : v = c := Option.some.inj (Eq.trans (Eq.symm hu) hu')
    exact absurd hw (h.candidate v hrole)

variable [DecidableEq N]

/-- Entering term `t` with a vote for `c`, as candidate or not. -/
theorem of_vote (h : Elections Q g) (v c : N) (t : Nat) (ht : g.cur v < t)
    (hother : ∀ u, u ≠ v → g'.role u = g.role u ∧ g'.cur u = g.cur u ∧ g'.disk u = g.disk u)
    (hvote : g'.vote = update₂ g.vote v t (some c)) (hwon : g'.won = g.won)
    (hdisk : g'.disk v = t) (hcur : g'.cur v = t) (hrole : g'.role v ≠ .leader) :
    Elections Q g' := by
  have hdv := h.disk_le v
  have hd : ∀ u, g.disk u ≤ g'.disk u := by
    intro u
    by_cases hu : u = v
    · subst hu
      omega
    · exact (hother u hu).2.2.ge
  have hkeep : ∀ u s x, g.vote u s = some x → g'.vote u s = some x := by
    intro u s x hu
    rw [hvote,update₂_apply,if_neg]
    · exact hu
    · rintro ⟨rfl,rfl⟩
      rw [h.vote_none ht] at hu
      exact absurd hu (by simp)
  refine ⟨?disk_le,?vote_le,?won_vote,?won_le,?leader,?candidate⟩
  case disk_le =>
    intro u
    by_cases hu : u = v
    · subst hu
      omega
    · obtain ⟨-,hc,hd⟩ := hother u hu
      rw [hc,hd]
      exact h.disk_le u
  case vote_le =>
    intro u s x hx
    rw [hvote,update₂_apply] at hx
    split_ifs at hx with huv
    · obtain ⟨rfl,rfl⟩ := huv
      exact hdisk.ge
    · exact (h.vote_le u s x hx).trans (hd u)
  case won_vote =>
    intro s x hw
    rw [hwon] at hw
    exact Q.mono (fun u hu => hkeep u s x hu) (h.won_vote s x hw)
  case won_le =>
    intro s x hw
    rw [hwon] at hw
    exact (h.won_le s x hw).trans (hd x)
  case leader =>
    intro u hr
    by_cases hu : u = v
    · exact absurd (hu ▸ hr) hrole
    · obtain ⟨hr',hc,-⟩ := hother u hu
      rw [hwon,hc]
      exact h.leader u (hr' ▸ hr)
  case candidate =>
    intro u hr hw
    rw [hwon] at hw
    by_cases hu : u = v
    · subst hu
      have hle := h.won_le _ _ hw
      omega
    · obtain ⟨hr',hc,-⟩ := hother u hu
      rw [hc] at hw
      exact h.candidate u (hr' ▸ hr) hw

theorem win (h : Elections Q g) {v : N} (hok : Votes Q g (.win v)) :
    Elections Q (g.apply (.win v)) := by
  have hnone := h.won_none hok
  obtain ⟨hrole,hself,hq⟩ := hok
  refine ⟨h.disk_le,h.vote_le,?won_vote,?won_le,?leader,?candidate⟩
  case won_vote =>
    intro t c hw
    by_cases ht : t = g.cur v
    · subst ht
      obtain rfl : v = c := by simpa [Core.apply] using hw
      exact hq
    · exact h.won_vote t c (by simpa [Core.apply,ht] using hw)
  case won_le =>
    intro t c hw
    by_cases ht : t = g.cur v
    · subst ht
      obtain rfl : v = c := by simpa [Core.apply] using hw
      exact h.vote_le _ _ _ hself
    · exact h.won_le t c (by simpa [Core.apply,ht] using hw)
  case leader =>
    intro u hr
    by_cases hu : u = v
    · subst hu
      simp [Core.apply]
    · have hl := h.leader u (by simpa [Core.apply,hu] using hr)
      have ht : g.cur u ≠ g.cur v := by
        intro ht
        rw [ht,hnone] at hl
        exact absurd hl (by simp)
      simpa [Core.apply,ht] using hl
  case candidate =>
    intro u hr
    by_cases hu : u = v
    · subst hu
      exact absurd hr (by simp [Core.apply])
    · have hc := h.candidate u (by simpa [Core.apply,hu] using hr)
      by_cases ht : g.cur u = g.cur v
      · simpa [Core.apply,ht] using Ne.symm hu
      · simpa [Core.apply,ht] using hc

theorem step (h : Elections Q g) {l : Label N E} (hok : Votes Q g l) :
    Elections Q (g.apply l) := by
  have hother : ∀ u, u ≠ l.node → (g.apply l).role u = g.role u ∧
      (g.apply l).cur u = g.cur u ∧ (g.apply l).disk u = g.disk u := by
    intro u hu
    obtain ⟨hr,hc,hd,-⟩ := g.apply_other l hu
    exact ⟨hr,hc,hd⟩
  have hdisk := h.disk_le
  cases l with
  | campaign v =>
    exact h.of_vote v v (g.cur v+1) (by omega) hother rfl rfl (by simp [Core.apply])
      (by simp [Core.apply]) (by simp [Core.apply])
  | grant v c t =>
    refine h.of_vote v c t hok hother rfl rfl (by simp [Core.apply]) (by simp [Core.apply]) ?_
    by_cases hr : g.role v = .leader <;> simp [Core.apply,hr]
  | raise v t =>
    obtain ⟨hlt,hr⟩ := hok
    exact h.of_local v hother rfl rfl (by simp [Core.apply])
      (by simpa [Core.apply] using (hdisk v).trans hlt.le)
      (fun hl => absurd hl hr) (fun hc => ⟨hc,by simpa [Core.apply] using hlt.le⟩)
  | follow v t d =>
    obtain ⟨ht,hd,hd'⟩ := hok
    exact h.of_local v hother rfl rfl (by simpa [Core.apply] using hd)
      (by simpa [Core.apply] using hd'.trans ht) (by simp [Core.apply]) (by simp [Core.apply])
  | save v =>
    exact h.of_local v hother rfl rfl (by simpa [Core.apply] using hdisk v)
      (by simp [Core.apply]) (fun hl => ⟨hl,rfl⟩) (fun hc => ⟨hc,le_refl _⟩)
  | restart v =>
    exact h.of_local v hother rfl rfl (by simp [Core.apply])
      (by simp [Core.apply]) (by simp [Core.apply]) (by simp [Core.apply])
  | win v => exact h.win hok
  | append v e =>
    exact h.of_local v hother rfl rfl (by simpa [Core.apply] using hdisk v)
      (by simp [Core.apply]) (fun hl => ⟨hl,rfl⟩) (fun hc => ⟨hc,le_refl _⟩)
  | accept v t k =>
    exact h.of_local v hother rfl rfl (by simpa [Core.apply] using hdisk v)
      (by simp [Core.apply]) (fun hl => ⟨hl,rfl⟩) (fun hc => ⟨hc,le_refl _⟩)

end Elections

variable {Q} {g g' : Core N E} [DecidableEq N]

theorem Elections.grow (h : Elections Q g) {l : Label N E} (hok : Votes Q g l) :
    VotesGrow g (g.apply l) := by
  have hvote : ∀ v c t, g.cur v < t → ∀ u s x, g.vote u s = some x →
      update₂ g.vote v t (some c) u s = some x := by
    intro v c t ht u s x hx
    rw [update₂_apply,if_neg]
    · exact hx
    · rintro ⟨rfl,rfl⟩
      rw [h.vote_none ht] at hx
      exact absurd hx (by simp)
  cases l with
  | campaign v => exact ⟨hvote v v _ (by omega),fun _ _ hw => hw⟩
  | grant v c t => exact ⟨hvote v c t hok,fun _ _ hw => hw⟩
  | win v =>
    refine ⟨fun _ _ _ hv => hv,fun t c hw => ?_⟩
    have ht : t ≠ g.cur v := by
      rintro rfl
      rw [h.won_none hok] at hw
      exact absurd hw (by simp)
    simpa [Core.apply,ht] using hw
  | raise v t => exact ⟨fun _ _ _ hv => hv,fun _ _ hw => hw⟩
  | follow v t d => exact ⟨fun _ _ _ hv => hv,fun _ _ hw => hw⟩
  | save v => exact ⟨fun _ _ _ hv => hv,fun _ _ hw => hw⟩
  | restart v => exact ⟨fun _ _ _ hv => hv,fun _ _ hw => hw⟩
  | append v e => exact ⟨fun _ _ _ hv => hv,fun _ _ hw => hw⟩
  | accept v t k => exact ⟨fun _ _ _ hv => hv,fun _ _ hw => hw⟩

/-- The term a node will restart with never falls. -/
theorem Elections.disk_grow (h : Elections Q g) {l : Label N E} (hok : Votes Q g l) (u : N) :
    g.disk u ≤ (g.apply l).disk u := by
  have hle := h.disk_le l.node
  by_cases hu : u = l.node
  · subst hu
    cases l with
    | campaign v => simpa [Core.apply,Label.node] using Nat.le_succ_of_le hle
    | grant v c t => simpa [Core.apply,Label.node] using hle.trans (Nat.le_of_lt hok)
    | follow v t d => simpa [Core.apply,Label.node] using hok.2.1
    | save v | append v e | accept v t k => simpa [Core.apply,Label.node] using hle
    | raise v t | restart v | win v => exact le_refl _
  · exact (g.apply_other l hu).2.2.1.ge

theorem Elections.path (hp : (replication N E).Path (Votes Q) g g') (h : Elections Q g) :
    Elections Q g' ∧ VotesGrow g g' := by
  refine hp.invariant (I := fun x => Elections Q x ∧ VotesGrow g x) ?_ ⟨h,.refl g⟩
  rintro x l y ⟨hx,hg⟩ hok hs
  obtain rfl := Option.some.inj hs
  exact ⟨hx.step hok,hg.trans (hx.grow hok)⟩

/-- Two leaders of one term, at any two moments of a run, are the same node. -/
theorem leader_unique {u v : N} (hg : Elections Q g)
    (hp : (replication N E).Path (Votes Q) g g') (hu : g.role u = .leader)
    (hv : g'.role v = .leader) (ht : g.cur u = g'.cur v) : u = v := by
  obtain ⟨hg',hgrow⟩ := hg.path hp
  have hw := hgrow.won _ _ (hg.leader u hu)
  rw [ht,hg'.leader v hv] at hw
  exact (Option.some.inj hw).symm

end Replication

end SRaftMuduo
