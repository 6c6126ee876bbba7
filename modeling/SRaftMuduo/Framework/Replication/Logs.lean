import SRaftMuduo.Framework.Replication.Elections
import Mathlib.Data.List.Infix

namespace SRaftMuduo

namespace Replication

variable {N E : Type*} (Q : QuorumSystem N) (term : E → Nat)

/-- Up to each of its entries the list is a prefix of the log of that entry's term. -/
def PrefixOk (canon : Nat → List E) (logs : List E) : Prop :=
  ∀ i e, logs[i]? = some e → logs.take (i+1) <+: canon (term e)

/-- Besides the conditions on votes: only a leader appends, in its own term, and a
leader takes over no other log. -/
def Writes (g : Core N E) (l : Label N E) : Prop :=
  Votes Q g l ∧
    match l with
    | .append v e => g.role v = .leader ∧ term e = g.cur v
    | .accept v _ _ => g.role v ≠ .leader
    | _ => True

/-- A property of every log of the nodes and of the terms. -/
structure Everywhere (P : List E → Prop) (g : Core N E) : Prop where
  log : ∀ v, P (g.log v)
  canon : ∀ t, P (g.canon t)

structure Logs (g : Core N E) : Prop where
  canon_won : ∀ t, g.won t = none → g.canon t = []
  leader : ∀ v, g.role v = .leader → g.log v = g.canon (g.cur v)
  canon : ∀ t, PrefixOk term g.canon (g.canon t)
  log : ∀ v, PrefixOk term g.canon (g.log v)

namespace PrefixOk

variable {term} {canon canon' : Nat → List E} {logs logs' : List E}

theorem nil : PrefixOk term canon [] := by
  intro i e h
  exact absurd h (by simp)

theorem mono (h : PrefixOk term canon logs) (hc : ∀ t, canon t <+: canon' t) :
    PrefixOk term canon' logs := by
  intro i e he
  exact (h i e he).trans (hc _)

theorem restrict (h : PrefixOk term canon logs) (hp : logs' <+: logs) :
    PrefixOk term canon logs' := by
  intro i e he
  obtain ⟨rest,rfl⟩ := hp
  have hlt := (List.getElem?_eq_some_iff.mp he).1
  have hi := h i e (by rw [List.getElem?_append_left hlt]; exact he)
  rwa [List.take_append_of_le_length (by omega)] at hi

theorem take (h : PrefixOk term canon logs) (k : Nat) : PrefixOk term canon (logs.take k) :=
  h.restrict (List.take_prefix k logs)

theorem snoc (h : PrefixOk term canon logs) {e : E} (he : logs++[e] <+: canon (term e)) :
    PrefixOk term canon (logs++[e]) := by
  intro i x hx
  by_cases hi : i < logs.length
  · rw [List.getElem?_append_left hi] at hx
    rw [List.take_append_of_le_length (by omega)]
    exact h i x hx
  · have hlt := (List.getElem?_eq_some_iff.mp hx).1
    rw [List.length_append,List.length_singleton] at hlt
    obtain rfl : i = logs.length := by omega
    obtain rfl : e = x := by simpa using hx
    rwa [List.take_of_length_le (by simp)]

/-- A list that ends with an entry is a prefix of the log of the entry's term. -/
theorem last (h : PrefixOk term canon logs) {e : E} (he : logs.getLast? = some e) :
    logs <+: canon (term e) := by
  rw [List.getLast?_eq_getElem?] at he
  have hi := h _ e he
  rwa [List.take_of_length_le (by omega)] at hi

/-- Two lists with entries of one term at one position agree up to there. -/
theorem matching (h : PrefixOk term canon logs) (h' : PrefixOk term canon logs') {i : Nat}
    {e e' : E} (he : logs[i]? = some e) (he' : logs'[i]? = some e')
    (ht : term e = term e') : logs.take (i+1) = logs'.take (i+1) := by
  have hlt := (List.getElem?_eq_some_iff.mp he).1
  have hlt' := (List.getElem?_eq_some_iff.mp he').1
  have hp := h i e he
  have hp' := h' i e' he'
  rw [← ht] at hp'
  have hlen : (logs.take (i+1)).length = (logs'.take (i+1)).length := by
    rw [List.length_take,List.length_take]
    omega
  exact (List.prefix_of_prefix_length_le hp hp' hlen.le).eq_of_length hlen

end PrefixOk

namespace Logs

variable {Q term} {g g' : Core N E}

theorem initial : Logs term (Core.initial : Core N E) :=
  ⟨fun _ _ => rfl,fun _ _ => rfl,fun _ => .nil,fun _ => .nil⟩

/-- The term of an entry has a winner. -/
theorem won_of_mem (h : Logs term g) {logs : List E} (hl : PrefixOk term g.canon logs) {e : E}
    (he : e ∈ logs) : ∃ c, g.won (term e) = some c := by
  cases hw : g.won (term e) with
  | some c => exact ⟨c,rfl⟩
  | none =>
    obtain ⟨i,hi⟩ := List.mem_iff_getElem?.mp he
    have hp := hl i e hi
    rw [h.canon_won _ hw,List.prefix_nil,List.take_eq_nil_iff] at hp
    rcases hp with hp | rfl
    · omega
    · exact absurd he (by simp)

variable [DecidableEq N]

theorem canon_grow (h : Logs term g) (he : Elections Q g) {l : Label N E}
    (hok : Writes Q term g l) (t : Nat) : g.canon t <+: (g.apply l).canon t := by
  obtain ⟨hv,hw⟩ := hok
  cases l with
  | win v =>
    by_cases ht : t = g.cur v
    · subst ht
      rw [h.canon_won _ (he.won_none hv)]
      exact List.nil_prefix
    · simp [Core.apply,ht]
  | append v e =>
    by_cases ht : t = g.cur v
    · subst ht
      rw [← h.leader v hw.1]
      simp [Core.apply]
    · simp [Core.apply,ht]
  | _ => exact List.prefix_rfl

/-- A step other than a win makes no leader and does not take a leader to another term. -/
theorem leader_before {l : Label N E} (hok : Votes Q g l) (hl : l ≠ .win l.node) {u : N}
    (hu : (g.apply l).role u = .leader) :
    g.role u = .leader ∧ (g.apply l).cur u = g.cur u := by
  by_cases huv : u = l.node
  · subst huv
    cases l with
    | win v => exact absurd rfl hl
    | campaign v => exact absurd hu (by simp [Core.apply,Label.node])
    | grant v c t =>
      by_cases hr : g.role v = .leader <;> simp [Core.apply,Label.node,hr] at hu
    | raise v t => exact absurd hu hok.2
    | follow v t d => exact absurd hu (by simp [Core.apply,Label.node])
    | restart v => exact absurd hu (by simp [Core.apply,Label.node])
    | save v => exact ⟨hu,rfl⟩
    | append v e => exact ⟨hu,rfl⟩
    | accept v t k => exact ⟨hu,rfl⟩
  · obtain ⟨hr,hc,-⟩ := g.apply_other l huv
    exact ⟨hr ▸ hu,hc⟩

/-- Steps that change no log. -/
theorem of_silent (h : Logs term g) {l : Label N E} (hok : Votes Q g l)
    (hl : l ≠ .win l.node) (hwon : (g.apply l).won = g.won)
    (hcanon : (g.apply l).canon = g.canon) (hlog : (g.apply l).log = g.log) :
    Logs term (g.apply l) := by
  refine ⟨?_,?_,?_,?_⟩
  · rw [hwon,hcanon]
    exact h.canon_won
  · intro u hu
    obtain ⟨hr,hc⟩ := leader_before hok hl hu
    rw [hlog,hcanon,hc]
    exact h.leader u hr
  · rw [hcanon]
    exact h.canon
  · rw [hcanon,hlog]
    exact h.log

theorem win (h : Logs term g) (he : Elections Q g) {v : N}
    (hok : Writes Q term g (.win v)) : Logs term (g.apply (.win v)) := by
  have hgrow := h.canon_grow he hok
  have hnone := he.won_none hok.1
  refine ⟨?_,?_,?_,fun u => (h.log u).mono hgrow⟩
  · intro t ht
    by_cases htv : t = g.cur v
    · subst htv
      exact absurd ht (by simp [Core.apply])
    · simp only [Core.apply,Function.update_of_ne htv] at ht ⊢
      exact h.canon_won t ht
  · intro u hu
    by_cases huv : u = v
    · subst huv
      simp [Core.apply]
    · have hr : g.role u = .leader := by simpa [Core.apply,huv] using hu
      have hw := he.leader u hr
      have ht : g.cur u ≠ g.cur v := by
        intro ht
        rw [ht,hnone] at hw
        exact absurd hw (by simp)
      simp only [Core.apply,Function.update_of_ne ht]
      exact h.leader u hr
  · intro t
    by_cases htv : t = g.cur v
    · subst htv
      have hlog : (g.apply (.win v)).canon (g.cur v) = g.log v := by simp [Core.apply]
      rw [hlog]
      exact (h.log v).mono hgrow
    · have hlog : (g.apply (.win v)).canon t = g.canon t := by simp [Core.apply,htv]
      rw [hlog]
      exact (h.canon t).mono hgrow

theorem append (h : Logs term g) (he : Elections Q g) {v : N} {e : E}
    (hok : Writes Q term g (.append v e)) : Logs term (g.apply (.append v e)) := by
  have hgrow := h.canon_grow he hok
  obtain ⟨-,hrole,hterm⟩ := hok
  have hcanon : (g.apply (.append v e)).canon (g.cur v) = g.log v++[e] := by
    simp [Core.apply]
  have hsnoc : PrefixOk term (g.apply (.append v e)).canon (g.log v++[e]) :=
    ((h.log v).mono hgrow).snoc (by rw [hterm,hcanon])
  refine ⟨?_,?_,?_,?_⟩
  · intro t ht
    by_cases htv : t = g.cur v
    · subst htv
      have hw : g.won (g.cur v) = none := ht
      rw [he.leader v hrole] at hw
      exact absurd hw (by simp)
    · simp only [Core.apply,Function.update_of_ne htv]
      exact h.canon_won t ht
  · intro u hu
    by_cases huv : u = v
    · subst huv
      simp [Core.apply]
    · have hw := he.leader u hu
      have ht : g.cur u ≠ g.cur v := by
        intro ht
        rw [ht,he.leader v hrole] at hw
        exact huv (Option.some.inj hw).symm
      simp only [Core.apply,Function.update_of_ne ht,Function.update_of_ne huv]
      exact h.leader u hu
  · intro t
    by_cases htv : t = g.cur v
    · subst htv
      rwa [hcanon]
    · have hsame : (g.apply (.append v e)).canon t = g.canon t := by simp [Core.apply,htv]
      rw [hsame]
      exact (h.canon t).mono hgrow
  · intro u
    by_cases huv : u = v
    · subst huv
      simpa [Core.apply] using hsnoc
    · have hsame : (g.apply (.append v e)).log u = g.log u := by simp [Core.apply,huv]
      rw [hsame]
      exact (h.log u).mono hgrow

theorem accept (h : Logs term g) {v : N} {t k : Nat}
    (hok : Writes Q term g (.accept v t k)) : Logs term (g.apply (.accept v t k)) := by
  obtain ⟨-,hrole⟩ := hok
  refine ⟨h.canon_won,?_,h.canon,?_⟩
  · intro u hu
    have huv : u ≠ v := by
      rintro rfl
      exact hrole hu
    simp only [Core.apply,Function.update_of_ne huv]
    exact h.leader u hu
  · intro u
    by_cases huv : u = v
    · subst huv
      simpa [Core.apply] using (h.canon t).take k
    · simpa [Core.apply,huv] using h.log u

theorem step (h : Logs term g) (he : Elections Q g) {l : Label N E}
    (hok : Writes Q term g l) : Logs term (g.apply l) := by
  cases l with
  | win v => exact h.win he hok
  | append v e => exact h.append he hok
  | accept v t k => exact h.accept hok
  | campaign v => exact h.of_silent hok.1 (by simp) rfl rfl rfl
  | grant v c t => exact h.of_silent hok.1 (by simp) rfl rfl rfl
  | raise v t => exact h.of_silent hok.1 (by simp) rfl rfl rfl
  | follow v t d => exact h.of_silent hok.1 (by simp) rfl rfl rfl
  | save v => exact h.of_silent hok.1 (by simp) rfl rfl rfl
  | restart v => exact h.of_silent hok.1 (by simp) rfl rfl rfl

theorem path (hp : (replication N E).Path (Writes Q term) g g') (he : Elections Q g)
    (h : Logs term g) :
    Elections Q g' ∧ Logs term g' ∧ ∀ t, g.canon t <+: g'.canon t := by
  refine hp.invariant (I := fun x =>
    Elections Q x ∧ Logs term x ∧ ∀ t, g.canon t <+: x.canon t) ?_
    ⟨he,h,fun _ => List.prefix_rfl⟩
  rintro x l y ⟨hx,hl,hg⟩ hok hs
  obtain rfl := Option.some.inj hs
  exact ⟨hx.step hok.1,hl.step hx hok,fun t => (hg t).trans (hl.canon_grow hx hok t)⟩

end Logs

section Everywhere

variable {N E : Type*} {Q : QuorumSystem N} [DecidableEq N] {g : Core N E}
  {P : List E → Prop}

/-- What holds of every log and of its prefixes is kept when an appended entry keeps it. -/
theorem Everywhere.step (h : Everywhere P g) (hp : ∀ logs k, P logs → P (logs.take k))
    {l : Label N E} (happ : ∀ v e, l = .append v e → P (g.log v++[e])) :
    Everywhere P (g.apply l) := by
  cases l with
  | win v =>
    refine ⟨h.log,fun t => ?_⟩
    by_cases ht : t = g.cur v
    · subst ht
      simpa [Core.apply] using h.log v
    · simpa [Core.apply,ht] using h.canon t
  | append v e =>
    have hnew := happ v e rfl
    refine ⟨fun u => ?_,fun t => ?_⟩
    · by_cases hu : u = v
      · subst hu
        simpa [Core.apply] using hnew
      · simpa [Core.apply,hu] using h.log u
    · by_cases ht : t = g.cur v
      · subst ht
        simpa [Core.apply] using hnew
      · simpa [Core.apply,ht] using h.canon t
  | accept v t k =>
    refine ⟨fun u => ?_,h.canon⟩
    by_cases hu : u = v
    · subst hu
      simpa [Core.apply] using hp _ k (h.canon t)
    · simpa [Core.apply,hu] using h.log u
  | _ => exact ⟨h.log,h.canon⟩

/-- Steps that write no log. -/
theorem Everywhere.silent (h : Everywhere P g) (hp : ∀ logs k, P logs → P (logs.take k))
    {ls : List (Label N E)} (hs : ∀ l ∈ ls, l.writes = false) :
    Everywhere P (g.applyAll ls) := by
  induction ls generalizing g with
  | nil => exact h
  | cons l ls ih =>
    refine ih (h.step hp ?_) (fun x hx => hs x (List.mem_cons_of_mem _ hx))
    rintro v e rfl
    exact absurd (hs _ List.mem_cons_self) (by simp [Label.writes])

theorem Allowed.writes (term : E → Nat) (h : Allowed (Votes Q) g ls)
    (hs : ∀ l ∈ ls, l.writes = false) :
    Allowed (Writes Q term) g ls ∧ (g.applyAll ls).log = g.log := by
  induction ls generalizing g with
  | nil => exact ⟨trivial,rfl⟩
  | cons l ls ih =>
    obtain ⟨hrest,hlog⟩ := ih h.2 (fun x hx => hs x (List.mem_cons_of_mem _ hx))
    have hl := hs l List.mem_cons_self
    have hsame : (g.apply l).log = g.log := by
      cases l <;> first | rfl | exact absurd hl (by simp [Label.writes])
    refine ⟨⟨⟨h.1,?_⟩,hrest⟩,hlog.trans hsame⟩
    cases l <;> trivial

/-- Steps without a win of its own leave a leader its term, and its log but for new entries. -/
theorem Allowed.leader_kept {term : E → Nat} {ls : List (Label N E)}
    (h : Allowed (Writes Q term) g ls) {u : N} (hw : .win u ∉ ls)
    (hu : (g.applyAll ls).role u = .leader) :
    g.role u = .leader ∧ (g.applyAll ls).cur u = g.cur u ∧ g.log u <+: (g.applyAll ls).log u := by
  induction ls generalizing g with
  | nil => exact ⟨hu,rfl,List.prefix_rfl⟩
  | cons l ls ih =>
    obtain ⟨hrole,hcur,hlog⟩ := ih h.2 (fun hmem => hw (List.mem_cons_of_mem _ hmem)) hu
    suffices hl : g.role u = .leader ∧ (g.apply l).cur u = g.cur u ∧
        g.log u <+: (g.apply l).log u from ⟨hl.1,hcur.trans hl.2.1,hl.2.2.trans hlog⟩
    by_cases hn : u = l.node
    · subst hn
      have hne : l ≠ .win l.node := fun he => hw (he ▸ List.mem_cons_self)
      obtain ⟨hbefore,hsame⟩ := Logs.leader_before h.1.1 hne hrole
      refine ⟨hbefore,hsame,?_⟩
      cases l with
      | append v e => simp [Core.apply,Label.node]
      | accept v t k => exact absurd hbefore h.1.2
      | _ => exact List.prefix_rfl
    · obtain ⟨hr,hc,-,hg,-⟩ := g.apply_other l hn
      exact ⟨hr ▸ hrole,hc,hg ▸ List.prefix_rfl⟩

end Everywhere

end Replication

end SRaftMuduo
