import AgentMail.Contacts.Basic
import Mathlib.Data.List.Induction

open Pattern (Str)

namespace Contacts

variable {links : Links} {pair : Party × Party} {row : AgentLinkRow} {now ttlSeconds : Int}
  {fromAgent toAgent : Party}
variable {reason : Str} {accept : Bool} {call : LinkCall} {calls : List LinkCall}
  {expires : Option Int} {status : LinkStatus}

namespace Links

theorem get?_insert {h : links.get? row.pair = none} :
    (links.insert row h).get? pair = if row.pair = pair then some { row with id := links.nextId }
      else links.get? pair :=
  @Table.get?_insert _ _ AgentLinkRow.pair _ links.table { row with id := links.nextId } pair h

theorem get?_update {p : AgentLinkRow → Bool} {f : AgentLinkRow → Str} :
    (links.update p status f now expires).get? pair = (links.get? pair).map fun row =>
        if p row then { row with status, reason := f row, updatedTs := now, expiresTs := expires }
          else row :=
  @Table.get?_update _ _ AgentLinkRow.pair _ links.table _ p
    (fun row => { row with status, reason := f row, updatedTs := now, expiresTs := expires })
      fun _ => rfl

theorem pair_of_get? (h : links.get? pair = some row) : row.pair = pair :=
  (Table.get?_eq_some_iff.mp h).right

-- The id of a row is that of no other row.
theorem pair_eq_of_id_eq {row' : AgentLinkRow} {pair' : Party × Party}
    (h : links.get? pair = some row) (h' : links.get? pair' = some row') (he : row.id = row'.id) :
    pair = pair' := by
  have ⟨hm, hp⟩ := Table.get?_eq_some_iff.mp h
  have ⟨hm', hp'⟩ := Table.get?_eq_some_iff.mp h'
  rw [← hp, ← hp', List.inj_on_of_nodup_map links.nodup hm hm' he]

-- What a link stands at.
def standing (links : Links) (pair : Party × Party) : Option (LinkStatus × Option Int) :=
  (links.get? pair).map fun row => (row.status, row.expiresTs)

def requested (now ttlSeconds : Int) : Option (LinkStatus × Option Int) → LinkStatus × Option Int
  | some (.blocked, expires) => (.blocked, expires)
  | _                        => (.pending, expiry now ttlSeconds)

def responded (now ttlSeconds : Int) (accept : Bool) : LinkStatus × Option Int :=
  if accept then (.approved, expiry now ttlSeconds) else (.blocked, none)

theorem standing_requestContact :
    (requestContact links now fromAgent toAgent reason ttlSeconds).standing pair =
      if pair = (fromAgent, toAgent) then some (requested now ttlSeconds (links.standing pair))
        else links.standing pair := by
  simp only [requestContact, standing]
  split
  case isTrue h =>
    have h : links.get? (fromAgent, toAgent) = none := h
    rw [get?_insert]
    by_cases hp : pair = (fromAgent, toAgent)
    case pos => simp [hp, AgentLinkRow.pair, h, requested]
    case neg => simp [hp, AgentLinkRow.pair, Ne.symm hp]
  case isFalse h =>
    have h : ¬links.get? (fromAgent, toAgent) = none := h
    have hpair (row : AgentLinkRow) (hr : links.get? pair = some row) : row.pair = pair :=
      pair_of_get? hr
    rw [get?_update]
    by_cases hp : pair = (fromAgent, toAgent)
    case neg =>
      cases hr : links.get? pair
      case none     => simp [hp]
      case some row =>
        have hn : row.pair ≠ (fromAgent, toAgent) := hpair row hr ▸ hp
        simp only [AgentLinkRow.pair, ne_eq, Prod.mk.injEq] at hn ⊢
        simp [hp, hn]
    case pos =>
      subst hp
      have ⟨row, hr⟩ := Option.ne_none_iff_exists'.mp h
      have he := hpair row hr
      simp only [AgentLinkRow.pair, Prod.mk.injEq] at he ⊢
      cases hs : row.status
      all_goals simp [hr, he, hs, requested]

theorem standing_respond :
    (links.call (.respond now fromAgent toAgent accept ttlSeconds)).standing pair =
      if pair = (fromAgent, toAgent) then (links.standing pair).map fun _ =>
        responded now ttlSeconds accept else links.standing pair := by
  simp only [call, respondContact]
  cases hr : links.get? (fromAgent, toAgent)
  case none =>
    by_cases hp : pair = (fromAgent, toAgent)
    case pos => simp [hp, standing, hr]
    case neg => simp [hp]
  case some row =>
    simp only [Option.bind_eq_bind, Option.bind_some, Option.getD_some, standing]
    rw [get?_update]
    by_cases hp : pair = (fromAgent, toAgent)
    case pos => cases accept <;> simp [hp, hr, responded]
    case neg =>
      cases hr' : links.get? pair
      case none => simp [hp]
      case some row' =>
        have hne : ¬row'.id = row.id := fun he => hp (pair_eq_of_id_eq hr' hr he)
        simp [hp, hne]

-- What a call makes of the link of a pair.
theorem standing_call : (links.call call).standing pair = if pair = call.pair then
    match call with
    | .request now _ _ _ ttlSeconds      => some (requested now ttlSeconds (links.standing pair))
    | .respond now _ _ accept ttlSeconds => (links.standing pair).map fun _ =>
      responded now ttlSeconds accept
    else links.standing pair := by
  cases call
  case request => exact standing_requestContact
  case respond => exact standing_respond

theorem calls_append {calls' : List LinkCall} :
    links.calls (calls ++ calls') = (links.calls calls).calls calls' :=
  List.foldl_append

theorem calls_concat : links.calls (calls ++ [call]) = (links.calls calls).call call :=
  calls_append

end Links

section Calls

variable {before after : List LinkCall}

def Requested (calls : List LinkCall) (pair : Party × Party) : Prop :=
  ∃ call ∈ calls, call.isRequest ∧ call.pair = pair

theorem requested_concat : Requested (calls ++ [call]) pair ↔ Requested calls pair ∨
    call.isRequest ∧ call.pair = pair := by
  simp [Requested, or_and_right, exists_or]

-- The last call on the pair is an acceptance of a request.
def Accepted (calls : List LinkCall) (pair : Party × Party) (expires : Option Int) : Prop :=
  ∃ before now ttlSeconds after, calls = before ++ .respond now pair.1 pair.2 true ttlSeconds ::
    after ∧
    expires = expiry now ttlSeconds ∧ Requested before pair ∧ ∀ call ∈ after, call.pair ≠ pair

-- The last answer to requests for the pair is a refusal.
def Refused (calls : List LinkCall) (pair : Party × Party) : Prop :=
  ∃ before now ttlSeconds after, calls = before ++ .respond now pair.1 pair.2 false ttlSeconds ::
    after ∧ Requested before pair ∧ ∀ call ∈ after, call.pair = pair → call.isRequest

theorem append_cons_eq_concat {α : Type} {l before after : List α} {a b : α} :
    l ++ [b] = before ++ a :: after ↔ after = [] ∧ l = before ∧ b = a ∨
      ∃ rest, after = rest ++ [b] ∧ l = before ++ a :: rest := by
  obtain rfl | ⟨rest, c, rfl⟩ := after.eq_nil_or_concat
  case inl => simp
  case inr =>
    have ha : before ++ a :: (rest ++ [c]) = (before ++ a :: rest) ++ [c] := by simp
    rw [List.concat_eq_append, ha, List.append_singleton_inj]
    constructor
    case mp => exact fun ⟨hl, hb⟩ => .inr ⟨rest, hb ▸ rfl, hl⟩
    case mpr =>
      rintro (⟨h, _⟩ | ⟨rest', h, rfl⟩)
      · simp at h
      · obtain ⟨rfl, rfl⟩ := List.append_singleton_inj.mp h
        exact ⟨rfl, rfl⟩

-- An element with something before it and something about all that follow: it is the last one, or
-- the last one is among those that follow.
theorem exists_append_cons_concat {α : Type} {P : List α → α → Prop} {Q : α → Prop} {l : List α}
    {b : α} : (∃ before a after, l ++ [b] = before ++ a :: after ∧ P before a ∧ ∀ c ∈ after, Q c) ↔
      P l b ∨ Q b ∧ ∃ before a after, l = before ++ a :: after ∧ P before a ∧ ∀ c ∈ after, Q c := by
  constructor
  case mp =>
    intro ⟨before, a, after, he, hp, ha⟩
    obtain ⟨rfl, rfl, rfl⟩ | ⟨rest, rfl, rfl⟩ := append_cons_eq_concat.mp he
    · exact .inl hp
    · exact .inr ⟨ha b (by simp), before, a, rest, rfl, hp, fun c hc => ha c (by simp [hc])⟩
  case mpr =>
    rintro (hp | ⟨hb, before, a, after, rfl, hp, ha⟩)
    · exact ⟨l, b, [], rfl, hp, nofun⟩
    · refine ⟨before, a, after ++ [b], by simp, hp, fun c hc => ?_⟩
      obtain hc | hc := List.mem_append.mp hc
      · exact ha c hc
      · exact List.mem_singleton.mp hc ▸ hb

theorem accepted_iff : Accepted calls pair expires ↔
    ∃ before call after, calls = before ++ call :: after ∧
    ((∃ now ttlSeconds, call = .respond now pair.1 pair.2 true ttlSeconds ∧
      expires = expiry now ttlSeconds) ∧
      Requested before pair) ∧ ∀ call ∈ after, call.pair ≠ pair := by
  constructor
  case mp  => exact fun ⟨before, now, ttl, after, he, hx, hr, ha⟩ =>
    ⟨_, _, _, he, ⟨⟨now, ttl, rfl, hx⟩, hr⟩, ha⟩
  case mpr => exact fun ⟨_, _, _, he, ⟨⟨now, ttl, hc, hx⟩, hr⟩, ha⟩ =>
    ⟨_, now, ttl, _, hc ▸ he, hx, hr, ha⟩

theorem accepted_concat : Accepted (calls ++ [call]) pair expires ↔
    (∃ now ttlSeconds, call = .respond now pair.1 pair.2 true ttlSeconds ∧
      expires = expiry now ttlSeconds) ∧
      Requested calls pair ∨ call.pair ≠ pair ∧ Accepted calls pair expires := by
  rw [accepted_iff, exists_append_cons_concat, ← accepted_iff]

theorem refused_iff : Refused calls pair ↔ ∃ before call after, calls = before ++ call :: after ∧
    ((∃ now ttlSeconds, call = .respond now pair.1 pair.2 false ttlSeconds) ∧
      Requested before pair) ∧ ∀ call ∈ after, call.pair = pair → call.isRequest := by
  constructor
  case mp  => exact fun ⟨before, now, ttl, after, he, hr, ha⟩ =>
    ⟨_, _, _, he, ⟨⟨now, ttl, rfl⟩, hr⟩, ha⟩
  case mpr => exact fun ⟨_, _, _, he, ⟨⟨now, ttl, hc⟩, hr⟩, ha⟩ => ⟨_, now, ttl, _, hc ▸ he, hr, ha⟩

theorem refused_concat : Refused (calls ++ [call]) pair ↔
    (∃ now ttlSeconds, call = .respond now pair.1 pair.2 false ttlSeconds) ∧ Requested calls pair ∨
      (call.pair = pair → call.isRequest) ∧ Refused calls pair := by
  rw [refused_iff, exists_append_cons_concat, ← refused_iff]

-- The states of a link, and what its history looks like then.
structure Explained (links : Links) (calls : List LinkCall) (pair : Party × Party) : Prop where
  none     : links.standing pair = none ↔ ¬Requested calls pair
  approved : ∀ expires, links.standing pair = some (.approved, expires) ↔
    Accepted calls pair expires
  blocked  : (∃ expires, links.standing pair = some (.blocked, expires)) ↔ Refused calls pair

theorem requested_iff (h : Explained links calls pair) : Requested calls pair ↔
    ∃ s, links.standing pair = some s := by
  rw [← Option.ne_none_iff_exists', ← not_iff_comm.mp h.none.symm]

theorem blocked_requested_iff {s : Option (LinkStatus × Option Int)} :
    (∃ expires, Links.requested now ttlSeconds s = (.blocked, expires)) ↔
      ∃ expires, s = some (.blocked, expires) := by
  rcases s with _ | ⟨_ | _ | _, _⟩ <;> simp [Links.requested]

theorem requested_ne_approved {s : Option (LinkStatus × Option Int)} :
    Links.requested now ttlSeconds s ≠ (.approved, expires) := by
  rcases s with _ | ⟨_ | _ | _, _⟩ <;> simp [Links.requested]

theorem explained_call (h : Explained links calls pair) :
    Explained (links.call call) (calls ++ [call]) pair := by
  by_cases hp : pair = call.pair
  case neg =>
    have hs : (links.call call).standing pair = links.standing pair := by
      rw [Links.standing_call, if_neg hp]
    have hr : Requested (calls ++ [call]) pair ↔ Requested calls pair := by
      simp [requested_concat, Ne.symm hp]
    have ha (e) : Accepted (calls ++ [call]) pair e ↔ Accepted calls pair e := by
      rw [accepted_concat]
      refine ⟨fun h => h.elim (fun ⟨⟨_, _, hc, _⟩, _⟩ => absurd (hc ▸ rfl) hp) And.right,
        fun h => .inr ⟨Ne.symm hp, h⟩⟩
    have hb : Refused (calls ++ [call]) pair ↔ Refused calls pair := by
      rw [refused_concat]
      refine ⟨fun h => h.elim (fun ⟨⟨_, _, hc⟩, _⟩ => absurd (hc ▸ rfl) hp) And.right,
        fun h => .inr ⟨fun he => absurd he.symm hp, h⟩⟩
    exact ⟨by rw [hs, hr, h.none], fun e => by rw [hs, ha, h.approved], by rw [hs, hb, h.blocked]⟩
  case pos =>
    subst hp
    have hreq := requested_iff h
    cases call
    case request now fromAgent toAgent reason ttl =>
      have hs : (links.call (.request now fromAgent toAgent reason ttl)).standing
          (fromAgent, toAgent) = _ := Links.standing_call
      simp only [LinkCall.pair, if_true] at hs h hreq ⊢
      refine ⟨?_, fun e => ?_, ?_⟩
      · simp [hs, requested_concat, LinkCall.isRequest, LinkCall.pair]
      · simp [hs, accepted_concat, LinkCall.pair, requested_ne_approved]
      · simp [hs, refused_concat, LinkCall.pair, LinkCall.isRequest,
          blocked_requested_iff, h.blocked]
    case respond now fromAgent toAgent accept ttl =>
      have hs : (links.call (.respond now fromAgent toAgent accept ttl)).standing
          (fromAgent, toAgent) = _ := Links.standing_call
      simp only [LinkCall.pair, if_true] at hs h hreq ⊢
      refine ⟨?_, fun e => ?_, ?_⟩
      · simp [hs, requested_concat, LinkCall.isRequest, h.none]
      · rw [accepted_concat, hs, hreq]
        cases links.standing (fromAgent, toAgent)
        all_goals cases accept
        all_goals simp [Links.responded, LinkCall.pair, eq_comm (a := e)]
      · rw [refused_concat, hs, hreq]
        cases links.standing (fromAgent, toAgent)
        all_goals cases accept
        all_goals simp [Links.responded, LinkCall.pair, LinkCall.isRequest]

end Calls

theorem explained_calls (calls : List LinkCall) (pair : Party × Party) :
    Explained (Links.empty.calls calls) calls pair := by
  induction calls using List.reverseRecOn
  case nil =>
    have hs : Links.empty.standing pair = none := rfl
    have ha (expires) : ¬Accepted [] pair expires := by simp [Accepted]
    have hb : ¬Refused [] pair := by simp [Refused]
    exact ⟨by simp [Links.calls, hs, Requested], fun e => by simp [Links.calls, hs, ha],
      by simp [Links.calls, hs, hb]⟩
  case append_singleton calls call hi => exact Links.calls_concat ▸ explained_call hi

-- A link is approved if the last call on it is an acceptance, and it is blocked if the last answer
-- is a refusal, whatever has been requested since. Without a request there is none.
theorem Links.standing_calls (calls : List LinkCall) (pair : Party × Party) :
    ((Links.empty.calls calls).standing pair = none ↔ ¬Requested calls pair) ∧
      (∀ expires, (Links.empty.calls calls).standing pair = some (.approved, expires) ↔
        Accepted calls pair expires) ∧
      ((∃ expires, (Links.empty.calls calls).standing pair = some (.blocked, expires)) ↔
        Refused calls pair) :=
  have h := explained_calls calls pair
  ⟨h.none, h.approved, h.blocked⟩

end Contacts
