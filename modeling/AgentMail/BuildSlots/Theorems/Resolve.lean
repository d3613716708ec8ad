import AgentMail.BuildSlots.Basic
import AgentMail.Pattern.Basic

open Pattern (Str trim isWhitespace)

namespace BuildSlots

section Path

variable {h : ShortHash} {identities : Set Str} {agent agent' : Str} {branch branch' : Option Str}
  {s t : Str}

def replace (c : Char) : Char :=
  if c ∈ replaced then '_' else c

theorem exists_trim_append : ∃ r, trim (s ++ ':' :: t) = s.dropWhile isWhitespace ++ ':' :: r := by
  have hstart : (s ++ ':' :: t).dropWhile isWhitespace = s.dropWhile isWhitespace ++ ':' :: t := by
    rw [List.dropWhile_append]
    split
    case isTrue he  =>
      rw [List.isEmpty_iff.mp he]
      rfl
    case isFalse he => rfl
  have ⟨r, hr⟩ : ∃ r, (t.reverse ++ [':']).dropWhile isWhitespace = r ++ [':'] := by
    rw [List.dropWhile_append]
    split
    case isTrue he  => exact ⟨[], rfl⟩
    case isFalse he => exact ⟨_, rfl⟩
  refine ⟨r.reverse, ?_⟩
  rw [trim, hstart, List.reverse_append, List.reverse_cons, List.dropWhile_append, hr]
  simp

theorem length_trim_le : (trim s).length ≤ (s.dropWhile isWhitespace).length := by
  rw [trim, List.length_reverse]
  exact (List.dropWhile_suffix _).length_le.trans_eq List.length_reverse

theorem safeComponent_eq_or : safeComponent s = (trim s).map replace ∨
    safeComponent s = "unknown".toList := by
  unfold safeComponent
  dsimp only
  split
  case isTrue  => exact .inr rfl
  case isFalse => exact .inl rfl

theorem safeComponent_append_colon :
    ∃ r, safeComponent (s ++ ':' :: t) = (s.dropWhile isWhitespace).map replace ++ '_' :: r := by
  have ⟨r, hr⟩ := exists_trim_append (s := s) (t := t)
  refine ⟨r.map replace, ?_⟩
  have hm : (trim (s ++ ':' :: t)).map replace = (s.dropWhile isWhitespace).map replace ++
      '_' :: r.map replace := by
    rw [hr, List.map_append, List.map_cons]
    rfl
  have hu : '_' ∈ (trim (s ++ ':' :: t)).map replace :=
    hm ▸ List.mem_append_right _ List.mem_cons_self
  rw [← hm, safeComponent]
  refine if_neg fun he => ?_
  obtain he | he | he := he
  all_goals
    rw [show (trim (s ++ ':' :: t)).map replace = _ from he] at hu
    simp at hu

theorem safeComponent_append_colon_ne : safeComponent (s ++ ':' :: t) ≠ safeComponent s := by
  have ⟨r, hr⟩ := safeComponent_append_colon (s := s) (t := t)
  intro he
  rw [hr] at he
  obtain hs | hs := safeComponent_eq_or (s := s)
  · have hl := congrArg List.length (he.trans hs)
    have := length_trim_le (s := s)
    simp at hl
    omega
  · have hu : '_' ∈ "unknown".toList := he.trans hs ▸ List.mem_append_right _ List.mem_cons_self
    simp at hu

theorem holderIdentity_cases (h : holderIdentity agent branch = holderIdentity agent' branch') :
    agent = agent' ∨ (∃ t, agent = agent' ++ ':' :: t) ∨ ∃ t, agent' = agent ++ ':' :: t := by
  have shorter {a a' b b' : Str} (h : a ++ ":::".toList ++ b = a' ++ ":::".toList ++ b')
      (hl : a.length ≤ a'.length) : a = a' ∨ ∃ t, a' = a ++ ':' :: t := by
    rw [List.append_assoc, List.append_assoc] at h
    obtain ⟨t, ht, hb⟩ | ⟨t, ht, hb⟩ := List.append_eq_append_iff.mp h
    · match t with
      | []     => exact .inl (by simpa using ht.symm)
      | c :: t =>
        have hc : ':' = c := (List.cons.inj hb).left
        exact .inr ⟨t, hc ▸ ht⟩
    · have := congrArg List.length ht
      have ht' : t = [] := by
        rw [List.length_append] at this
        exact List.eq_nil_of_length_eq_zero (by omega)
      exact .inl (by simpa [ht'] using ht)
  match branch, branch' with
  | none, none     => exact .inl h
  | some b, none   => exact .inr (.inr ⟨':' :: ':' :: b, by simpa [holderIdentity] using h.symm⟩)
  | none, some b   => exact .inr (.inl ⟨':' :: ':' :: b, by simpa [holderIdentity] using h⟩)
  | some b, some c =>
    obtain hl | hl := Nat.le_total agent.length agent'.length
    · exact (shorter h hl).imp id .inr
    · exact (shorter h.symm hl).imp .symm .inl

-- The names of leases of different agents differ.
theorem leasePathForHolder_inj (hd : Set.InjOn h.hash identities)
    (hm : holderIdentity agent branch ∈ identities)
    (hm' : holderIdentity agent' branch' ∈ identities)
    (hp : leasePathForHolder h agent branch = leasePathForHolder h agent' branch') :
    agent = agent' := by
  have hp := List.append_cancel_right hp
  have ⟨hc, hh⟩ := List.append_inj' hp ((h.length _).trans (h.length _).symm)
  have hc := List.append_cancel_right hc
  obtain ha | ⟨t, ha⟩ | ⟨t, ha⟩ := holderIdentity_cases (hd hm hm' hh)
  · exact ha
  · exact absurd (ha ▸ hc) safeComponent_append_colon_ne
  · exact absurd (ha ▸ hc).symm safeComponent_append_colon_ne

end Path

section Resolve

variable {h : ShortHash} {identities : Set Str} {agent : Str} {branch : Option Str}
  {entries : List Entry}
variable {s : State} {f g : Entry}

theorem findAgentLease_filter {paths : List Str} :
    findAgentLease agent branch (entries.filter (·.2.agent = agent)) paths =
      findAgentLease agent branch entries paths := by
  induction entries generalizing paths
  case nil => rfl
  case cons f entries hi =>
    by_cases ha : f.2.agent = agent
    case neg => rw [List.filter_cons_of_neg (by simpa using ha), hi, findAgentLease, if_pos ha]
    case pos =>
      rw [List.filter_cons_of_pos (by simpa using ha), findAgentLease, findAgentLease]
      simp only [hi]

theorem existingAgentLeasePath_eq_none (hn : ∀ f ∈ entries, f.2.agent ≠ agent) :
    existingAgentLeasePath entries agent branch = none := by
  have hf : entries.filter (·.2.agent = agent) = [] :=
    List.filter_eq_nil_iff.mpr (by simpa using hn)
  rw [existingAgentLeasePath, ← findAgentLease_filter, hf]
  rfl

theorem existingAgentLeasePath_eq_some (hf : entries.filter (·.2.agent = agent) = [f]) :
    existingAgentLeasePath entries agent branch = some f.1 := by
  have ha : f.2.agent = agent := by
    have hm : f ∈ entries.filter (·.2.agent = agent) := hf ▸ List.mem_cons_self
    simpa using (List.mem_filter.mp hm).right
  rw [existingAgentLeasePath, ← findAgentLease_filter, hf, findAgentLease,
    if_neg (not_not_intro ha)]
  split <;> rfl

namespace Invariant

theorem filter_agent (hi : Invariant h identities s) (hp : entries.Perm s.files.rows)
    (hf : f ∈ s.files.rows) : entries.filter (·.2.agent = f.2.agent) = [f] := by
  have hn : entries.Nodup := hp.nodup_iff.mpr s.files.nodup.of_map
  have hm : f ∈ entries.filter (·.2.agent = f.2.agent) :=
    List.mem_filter.mpr ⟨hp.mem_iff.mpr hf, by simp⟩
  refine List.Perm.eq_singleton <|
    (List.perm_ext_iff_of_nodup (hn.filter _) (List.nodup_singleton f)).mpr fun g => ?_
  rw [List.mem_singleton, List.mem_filter, hp.mem_iff, decide_eq_true_iff]
  constructor
  case mp  => exact fun ⟨hg, ha⟩ => hi.single g hg f hf ha
  case mpr =>
    intro hg
    rw [hg]
    exact ⟨hf, rfl⟩

-- The file at the preferred path is of the agent.
theorem agent_of_preferred (hi : Invariant h identities s) (hd : Set.InjOn h.hash identities)
    (hm : holderIdentity agent branch ∈ identities)
    (hg : s.files.get? (leasePathForHolder h agent branch) = some g) : g.2.agent = agent := by
  have ⟨hg, hp⟩ := Table.get?_eq_some_iff.mp hg
  have ⟨b, hn, hb⟩ := hi.named g hg
  exact leasePathForHolder_inj hd hb hm (hn.symm.trans hp)

theorem resolve_own (hi : Invariant h identities s) (hd : Set.InjOn h.hash identities)
    (hm : holderIdentity f.2.agent branch ∈ identities) (hp : entries.Perm s.files.rows)
    (hf : f ∈ s.files.rows) (hl : s.files.get? (leasePathForHolder h f.2.agent branch) = none →
      ∀ g ∈ s.files.get? (legacyLeasePathForHolder f.2.agent branch), g.2.agent = f.2.agent) :
    resolveHolderLeasePath h s.files entries f.2.agent branch = f.1 := by
  have own {p : Str} {g : Entry} (hg : s.files.get? p = some g) (ha : g.2.agent = f.2.agent) :
      p = f.1 := by
    obtain ⟨hg, hk⟩ := Table.get?_eq_some_iff.mp hg
    exact hi.single g hg f hf ha ▸ hk.symm
  unfold resolveHolderLeasePath
  dsimp only
  split
  case isTrue he =>
    obtain ⟨g, hg⟩ := Option.isSome_iff_exists.mp he
    exact own hg (hi.agent_of_preferred hd hm hg)
  case isFalse hn =>
    rw [Option.not_isSome_iff_eq_none] at hn
    split
    case isTrue he =>
      obtain ⟨g, hg⟩ := Option.isSome_iff_exists.mp he
      exact own hg (hl hn g hg)
    case isFalse => rw [existingAgentLeasePath_eq_some (hi.filter_agent hp hf), Option.getD_some]

end Invariant

theorem resolve_new (hp : entries.Perm s.files.rows) (hn : ∀ f ∈ s.files.rows, f.2.agent ≠ agent)
    (hl : s.files.get? (leasePathForHolder h agent branch) = none →
      ∀ g ∈ s.files.get? (legacyLeasePathForHolder agent branch), g.2.agent = agent) :
    resolveHolderLeasePath h s.files entries agent branch = leasePathForHolder h agent branch := by
  have absent {p : Str} {g : Entry} (hg : s.files.get? p = some g) (ha : g.2.agent = agent) :
      False :=
    hn g (Table.get?_eq_some_iff.mp hg).left ha
  unfold resolveHolderLeasePath
  dsimp only
  split
  case isTrue     => rfl
  case isFalse he =>
    rw [Option.not_isSome_iff_eq_none] at he
    split
    case isTrue hs =>
      obtain ⟨g, hg⟩ := Option.isSome_iff_exists.mp hs
      exact (absent hg (hl he g hg)).elim
    case isFalse =>
      rw [existingAgentLeasePath_eq_none fun f hf => hn f (hp.mem_iff.mp hf), Option.getD_none]

theorem resolve_legacy (hn : s.files.get? (leasePathForHolder h agent branch) = none)
    (hg : s.files.get? (legacyLeasePathForHolder agent branch) = some g) :
    resolveHolderLeasePath h s.files entries agent branch = g.1 := by
  have hk := (Table.get?_eq_some_iff.mp hg).right
  rw [resolveHolderLeasePath, if_neg (by simp [hn]), if_pos (by simp [hg])]
  exact hk.symm

end Resolve

end BuildSlots
