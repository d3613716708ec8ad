import AgentMail.Contacts.Theorems.Links
import Mathlib.Data.List.Dedup

open Pattern (Str trim)
open Schema (AgentRow)

namespace Contacts

section Approved

variable {links : Links} {now : Nat → Int} {projectId senderId id : Int} {ids : List Int}

theorem mem_sortDedup : id ∈ sortDedup ids ↔ id ∈ ids := by
  rw [sortDedup, List.mem_dedup, (List.mergeSort_perm ids _).mem_iff]

theorem Links.standing_eq_some_iff {pair : Party × Party} {s : LinkStatus × Option Int} :
    links.standing pair = some s ↔ ∃ row ∈ links.table.rows, row.pair = pair ∧
      (row.status, row.expiresTs) = s := by
  rw [standing, Option.map_eq_some_iff]
  exact exists_congr fun row => by rw [get?, Table.get?_eq_some_iff, and_assoc]

theorem approvedAt_iff {row : AgentLinkRow} {now : Int} :
    row.approvedAt now ↔ row.status = .approved ∧ row.expiresTs.all (· > now) := by
  simp [AgentLinkRow.approvedAt]

theorem mem_listApprovedContactIds (hn : ids.Nodup) :
    id ∈ listApprovedContactIds links now projectId senderId ids ↔ id ∈ ids ∧
      ∃ expires, links.standing ((projectId, senderId), (projectId, id)) =
        some (.approved, expires) ∧ expires.all (· > now (ids.idxOf id / maxInClauseItems)) := by
  have hchunk {i : Nat} :=
    exists_chunk_iff (i := i) (show 0 < maxInClauseItems by decide) hn (a := id)
  simp only [listApprovedContactIds, mem_sortDedup, List.mem_flatMap, List.mem_map, List.mem_filter,
    decide_eq_true_eq, Links.standing_eq_some_iff, List.mem_zipIdx_iff_getElem?, Prod.exists]
  constructor
  case mp =>
    rintro ⟨chunk, i, hc, row, ⟨hr, ha, hb, hat, hm⟩, rfl⟩
    obtain ⟨hm, rfl⟩ := hchunk.mp ⟨chunk, hc, hm⟩
    have ⟨hs, he⟩ := approvedAt_iff.mp hat
    exact ⟨hm, row.expiresTs, ⟨row, hr, Prod.ext ha (Prod.ext hb rfl), Prod.ext hs rfl⟩, he⟩
  case mpr =>
    rintro ⟨hm, expires, ⟨row, hr, hp, hs⟩, he⟩
    obtain ⟨chunk, hc, hm⟩ := hchunk.mpr ⟨hm, rfl⟩
    obtain rfl : row.expiresTs = expires := congrArg Prod.snd hs
    have hs : row.status = .approved := congrArg Prod.fst hs
    have ha : row.a = (projectId, senderId) := congrArg Prod.fst hp
    have hb : row.b = (projectId, id) := congrArg Prod.snd hp
    exact ⟨chunk, _, hc, row, ⟨hr, ha, by rw [hb], approvedAt_iff.mpr ⟨hs, he⟩, by rwa [hb]⟩,
      by rw [hb]⟩

end Approved

variable {toLowercase : Str → Str} {resolve : Str → Option AgentRow}
  {recipients recipients' : Recipients} {kind : Kind}
variable {name : Str} {names toNames cc bcc : List Str}

-- Agents are resolved by name, up to case.
def SameAgent (toLowercase : Str → Str) (resolve : Str → Option AgentRow) : Prop :=
  ∀ name name' agent agent', resolve name = some agent → resolve name' = some agent' →
    toLowercase agent.name = toLowercase agent'.name → agent.id = agent'.id

-- The recipients are listed along with their names, and are found by them.
structure Recipients.Consistent (toLowercase : Str → Str) (resolve : Str → Option AgentRow)
    (recipients : Recipients) : Prop where
  map   : ∀ entry ∈ recipients.map.rows, entry.1 = toLowercase entry.2.name ∧
    ∃ name, resolve name = some entry.2
  names : List.Forall₂ (fun r n => ∃ agent, agentOf toLowercase recipients n.1 = some agent ∧
    agent.id = r.1)
    recipients.all recipients.resolved

theorem agentOf_eq_some_iff {agent : AgentRow} : agentOf toLowercase recipients name = some agent ↔
    (toLowercase name, agent) ∈ recipients.map.rows := by
  rw [agentOf, Option.map_eq_some_iff]
  constructor
  case mp =>
    rintro ⟨⟨key, _⟩, h, rfl⟩
    obtain ⟨h, rfl⟩ := Table.get?_eq_some_iff.mp h
    exact h
  case mpr => exact fun h => ⟨_, Table.get?_key h, rfl⟩

-- A name adds its agent to the map, and to the recipients unless the agent is one of them.
theorem pushRecipient_eq_some
    (h : pushRecipient toLowercase resolve kind name recipients = some recipients') :
    ∃ map : RecipientMap, ∃ agent : AgentRow,
      (map = recipients.map ∧ (toLowercase (trim name), agent) ∈ map.rows ∨
        resolve (trim name) = some agent ∧
          map = recipients.map.put (toLowercase agent.name, agent)) ∧
      recipients' = if agent.id ∈ recipients.all.map Prod.fst then { recipients with map }
        else ⟨map, recipients.all ++ [(agent.id, kind)],
          recipients.resolved ++ [(agent.name, kind)]⟩ := by
  have push {map : RecipientMap} {agent : AgentRow}
      (h : (if agent.id ∈ recipients.all.map Prod.fst then some { recipients with map }
      else some ⟨map, recipients.all ++ [(agent.id, kind)],
        recipients.resolved ++ [(agent.name, kind)]⟩) = some recipients') :
      recipients' = if agent.id ∈ recipients.all.map Prod.fst then { recipients with map }
        else ⟨map, recipients.all ++ [(agent.id, kind)],
          recipients.resolved ++ [(agent.name, kind)]⟩ := by
    rw [← apply_ite some, Option.some.injEq] at h
    exact h.symm
  simp only [pushRecipient, Option.bind_eq_bind] at h
  split at h
  case h_1 key existing hg =>
    obtain ⟨hg, rfl⟩ := Table.get?_eq_some_iff.mp hg
    exact ⟨_, existing, .inl ⟨rfl, hg⟩, push h⟩
  case h_2 =>
    obtain ⟨⟨map, agent⟩, hm, h⟩ := Option.bind_eq_some_iff.mp h
    obtain ⟨_, hr, he⟩ := Option.map_eq_some_iff.mp hm
    cases he
    exact ⟨_, agent, .inr ⟨hr, rfl⟩, push h⟩

namespace Recipients.Consistent

theorem empty : Consistent toLowercase resolve ⟨.empty, [], []⟩ where
  map   := nofun
  names := .nil

theorem pushRecipient (hs : SameAgent toLowercase resolve)
    (hc : recipients.Consistent toLowercase resolve)
    (h : pushRecipient toLowercase resolve kind name recipients = some recipients') :
    recipients'.Consistent toLowercase resolve := by
  obtain ⟨map, agent, hm, rfl⟩ := pushRecipient_eq_some h
  -- Both ways lead to a map with the agent, in which every recipient is still found.
  have ⟨ha, hmap, hkeep⟩ : (toLowercase agent.name, agent) ∈ map.rows ∧
      (∀ entry ∈ map.rows, entry.1 = toLowercase entry.2.name ∧
        ∃ name, resolve name = some entry.2) ∧
      ∀ entry ∈ recipients.map.rows, ∃ entry' ∈ map.rows, entry'.1 = entry.1 ∧
        entry'.2.id = entry.2.id := by
    obtain ⟨rfl, ha⟩ | ⟨hr, rfl⟩ := hm
    · have hk : toLowercase (trim name) = toLowercase agent.name := (hc.map _ ha).left
      exact ⟨hk ▸ ha, hc.map, fun entry he => ⟨entry, he, rfl, rfl⟩⟩
    · refine ⟨Table.mem_put.mpr (.inl rfl), fun entry he => ?_, fun entry he => ?_⟩
      · obtain rfl | ⟨he, _⟩ := Table.mem_put.mp he
        · exact ⟨rfl, _, hr⟩
        · exact hc.map entry he
      · have ⟨hk, name', hr'⟩ := hc.map entry he
        by_cases hn : entry.1 = toLowercase agent.name
        case neg => exact ⟨entry, Table.mem_put.mpr (.inr ⟨he, hn⟩), rfl, rfl⟩
        case pos =>
          exact ⟨_, Table.mem_put.mpr (.inl rfl), hn.symm, hs _ _ _ _ hr hr' (hn.symm.trans hk)⟩
  have hnames {all : List (Int × Kind)} {resolved : List (Str × Kind)} :
      List.Forall₂ (fun r n => ∃ agent, agentOf toLowercase ⟨map, all, resolved⟩ n.1 = some agent ∧
        agent.id = r.1)
        recipients.all recipients.resolved := by
    refine hc.names.imp fun r n ⟨agent, hn, hi⟩ => ?_
    obtain ⟨⟨_, agent'⟩, he, rfl, hi'⟩ := hkeep _ (agentOf_eq_some_iff.mp hn)
    exact ⟨agent', agentOf_eq_some_iff.mpr he, hi'.trans hi⟩
  split
  case isTrue  => exact ⟨hmap, hnames⟩
  case isFalse =>
    refine ⟨hmap, List.rel_append hnames ?_⟩
    exact .cons ⟨agent, agentOf_eq_some_iff.mpr ha, rfl⟩ .nil

theorem foldlM (hs : SameAgent toLowercase resolve) (hc : recipients.Consistent toLowercase resolve)
    (h : names.foldlM (fun recipients name =>
      Contacts.pushRecipient toLowercase resolve kind name recipients) recipients =
      some recipients') : recipients'.Consistent toLowercase resolve := by
  induction names generalizing recipients
  case nil => cases h; exact hc
  case cons name names hi =>
    have ⟨_, hp, h⟩ := Option.bind_eq_some_iff.mp h
    exact hi (hc.pushRecipient hs hp) h

theorem pushRecipients (hs : SameAgent toLowercase resolve)
    (h : pushRecipients toLowercase resolve toNames cc bcc = some recipients) :
    recipients.Consistent toLowercase resolve := by
  have ⟨_, hto, h⟩ := Option.bind_eq_some_iff.mp h
  have ⟨_, hcc, hbcc⟩ := Option.bind_eq_some_iff.mp h
  exact foldlM hs (foldlM hs (foldlM hs empty hto) hcc) hbcc

end Recipients.Consistent

-- The agents that a message is for.
def Recipients.agents (toLowercase : Str → Str) (recipients : Recipients) : List AgentRow :=
  (recipients.resolved.map Prod.fst).filterMap (agentOf toLowercase recipients)

namespace Recipients.Consistent

theorem agentOf_name {agent : AgentRow} (hc : recipients.Consistent toLowercase resolve)
    (ha : agent ∈ recipients.agents toLowercase) :
    agentOf toLowercase recipients agent.name = some agent := by
  have ⟨_, _, h⟩ := List.mem_filterMap.mp ha
  have h := agentOf_eq_some_iff.mp h
  have hk : _ = toLowercase agent.name := (hc.map _ h).left
  exact agentOf_eq_some_iff.mpr (hk ▸ h)

theorem agents_ids (hc : recipients.Consistent toLowercase resolve) :
    (recipients.agents toLowercase).map (·.id) = recipients.all.map Prod.fst := by
  have h {all : List (Int × Kind)} {resolved : List (Str × Kind)}
      (h : List.Forall₂ (fun r n => ∃ agent, agentOf toLowercase recipients n.1 = some agent ∧
        agent.id = r.1) all resolved) :
      ((resolved.map Prod.fst).filterMap (agentOf toLowercase recipients)).map (·.id) =
        all.map Prod.fst := by
    induction h
    case nil => rfl
    case cons r n all resolved h _ hi =>
      have ⟨agent, ha, hr⟩ := h
      rw [List.map_cons, List.map_cons, List.filterMap_cons_some ha, List.map_cons, hi, hr]
  exact h hc.names

end Recipients.Consistent

section Enforce

variable {cfg : ContactConfig} {projectId : Int} {sender agent : AgentRow} {env : Surroundings}
  {calls : List LinkCall}
variable {autoContactIfBlocked : Option Bool} {approvedIds : List Int} {blocked : List Str}
variable {policyRaw senderName recipientName : Str} {recentOk approved : Bool}

theorem contactPolicyDecision_eq_blockAll_iff :
    contactPolicyDecision toLowercase senderName recipientName policyRaw recentOk approved =
      .blockAll ↔
      recipientName ≠ senderName ∧ contactPolicy toLowercase policyRaw = "block_all".toList := by
  simp only [contactPolicyDecision]
  repeat' split
  all_goals simp_all

theorem contactPolicyDecision_eq_allow_iff :
    contactPolicyDecision toLowercase senderName recipientName policyRaw recentOk approved =
      .allow ↔ recipientName = senderName ∨ contactPolicy toLowercase policyRaw = "open".toList ∨
        contactPolicy toLowercase policyRaw = "auto".toList ∧ recentOk ∨
        contactPolicy toLowercase policyRaw ≠ "block_all".toList ∧ approved := by
  have hb : "block_all".toList ≠ "open".toList ∧ "block_all".toList ≠ "auto".toList := by decide
  simp only [contactPolicyDecision]
  repeat' split
  all_goals simp_all

-- The decision for a recipient.
def decision (toLowercase : Str → Str) (sender : AgentRow) (env : Surroundings)
    (approvedIds : List Int) (agent : AgentRow) : ContactPolicyDecision :=
  contactPolicyDecision toLowercase sender.name agent.name agent.contactPolicy
    (Contacts.recentOk env agent)
    (approvedIds.contains agent.id)

theorem checkPolicy_of_agentOf (ha : agentOf toLowercase recipients name = some agent) :
    checkPolicy toLowercase sender recipients env approvedIds blocked name =
      match decision toLowercase sender env approvedIds agent with
      | .allow           => some blocked
      | .blockAll        => none
      | .requireApproval => some (blocked ++ [agent.name]) := by
  rw [checkPolicy, ha]
  rfl

-- All recipients are checked, and none is asked if one of them blocks all.
theorem foldlM_checkPolicy :
    names.foldlM (checkPolicy toLowercase sender recipients env approvedIds) blocked =
      if ∃ agent ∈ names.filterMap (agentOf toLowercase recipients),
        decision toLowercase sender env approvedIds agent = .blockAll
      then none
      else some (blocked ++ ((names.filterMap (agentOf toLowercase recipients)).filter
        (decision toLowercase sender env approvedIds · = .requireApproval)).map (·.name)) := by
  induction names generalizing blocked
  case nil => simp
  case cons name names hi =>
    rw [List.foldlM_cons]
    cases ha : agentOf toLowercase recipients name
    case none       =>
      have hc : checkPolicy toLowercase sender recipients env approvedIds blocked name =
          some blocked := by rw [checkPolicy, ha]
      rw [hc, List.filterMap_cons_none ha]
      exact hi
    case some agent =>
      rw [checkPolicy_of_agentOf ha, List.filterMap_cons_some ha]
      cases hd : decision toLowercase sender env approvedIds agent
      all_goals simp only [List.mem_cons, exists_eq_or_imp, hd, List.filter_cons,
        Option.bind_eq_bind, Option.bind_some, hi, reduceCtorEq, false_or, true_or, decide_true,
        decide_false, if_true, if_false]
      case blockAll        => rfl
      case requireApproval => simp only [List.map_cons, List.append_assoc, List.singleton_append]

-- The recipients that have to approve.
def asked (toLowercase : Str → Str) (sender : AgentRow) (recipients : Recipients)
    (env : Surroundings) (approvedIds : List Int) : List Str :=
  ((recipients.agents toLowercase).filter (decision toLowercase sender env approvedIds · =
    .requireApproval)).map (·.name)

theorem mem_asked : name ∈ asked toLowercase sender recipients env approvedIds ↔
    ∃ agent ∈ recipients.agents toLowercase,
      decision toLowercase sender env approvedIds agent = .requireApproval ∧ agent.name = name := by
  simp [asked, and_assoc]

theorem foldlM_resolved : (recipients.resolved.map Prod.fst).foldlM
    (checkPolicy toLowercase sender recipients env approvedIds) [] =
    if ∃ agent ∈ recipients.agents toLowercase,
      decision toLowercase sender env approvedIds agent = .blockAll then none
    else some (asked toLowercase sender recipients env approvedIds) :=
  foldlM_checkPolicy

theorem foldlM_resolved_eq_some (h : (recipients.resolved.map Prod.fst).foldlM
      (checkPolicy toLowercase sender recipients env approvedIds) [] = some names) :
    asked toLowercase sender recipients env approvedIds = names ∧
      ∀ agent ∈ recipients.agents toLowercase,
        decision toLowercase sender env approvedIds agent = .allow ∨
        decision toLowercase sender env approvedIds agent = .requireApproval := by
  rw [foldlM_resolved] at h
  split at h
  case isTrue     => cases h
  case isFalse hb =>
    refine ⟨Option.some.inj h, fun agent hm => ?_⟩
    cases hd : decision toLowercase sender env approvedIds agent
    case allow           => exact .inl rfl
    case requireApproval => exact .inr rfl
    case blockAll        => exact absurd ⟨agent, hm, hd⟩ hb

theorem stillBlocked_eq_false_iff (ha : agentOf toLowercase recipients name = some agent) :
    stillBlocked toLowercase recipients approvedIds name = false ↔
      contactPolicy toLowercase agent.contactPolicy = "open".toList ∨
        contactPolicy toLowercase agent.contactPolicy ≠ "block_all".toList ∧
          agent.id ∈ approvedIds := by
  have hp : contactPolicy toLowercase agent.contactPolicy ∈
      ["open", "auto", "contacts_only", "block_all"].map (·.toList) := by
    simp only [contactPolicy]
    split
    case isTrue h => exact h
    case isFalse  => decide
  simp only [List.map_cons, List.map_nil, List.mem_cons, List.not_mem_nil, or_false] at hp
  simp only [stillBlocked, ha]
  obtain h | h | h | h := hp
  all_goals simp [h]

-- The agent has been asked by the sender, and accepts at that time.
def AcceptedBy (projectId : Int) (sender : AgentRow) (calls : List LinkCall) (now : Int)
    (agent : AgentRow) : Prop :=
  agent.id ≠ sender.id ∧
    ∃ expires, Accepted calls ((projectId, sender.id), (projectId, agent.id)) expires ∧
      expires.all (· > now)

-- The chunk of the candidates in which an agent is looked up.
def chunkOf (sender : AgentRow) (recipients : Recipients) (agent : AgentRow) : Nat :=
  (candidateIds sender recipients).idxOf agent.id / maxInClauseItems

theorem mem_approvedIds_iff (hc : recipients.Consistent toLowercase resolve)
    (ha : agent ∈ recipients.agents toLowercase) {now : Nat → Int} :
    agent.id ∈ listApprovedContactIds (Links.empty.calls calls) now projectId sender.id
        (candidateIds sender recipients) ↔
      AcceptedBy projectId sender calls (now (chunkOf sender recipients agent)) agent := by
  have ha := agentOf_eq_some_iff.mp (hc.agentOf_name ha)
  have hm : agent.id ∈ candidateIds sender recipients ↔ agent.id ≠ sender.id := by
    rw [candidateIds, mem_sortDedup, List.mem_filter, decide_eq_true_eq]
    exact and_iff_right (List.mem_map_of_mem (f := fun entry : Str × AgentRow => entry.2.id) ha)
  have hn : (candidateIds sender recipients).Nodup := List.nodup_dedup _
  rw [mem_listApprovedContactIds hn, hm]
  exact and_congr_right' (exists_congr fun expires =>
    and_congr_left' ((explained_calls calls _).approved expires))

-- The reasons to deliver a message to an agent, with the calls before the message and those that
-- are made meanwhile.
def Justified (toLowercase : Str → Str) (projectId : Int) (sender : AgentRow)
    (recipients : Recipients) (env : Surroundings) (autoContact : Bool)
    (calls meanwhile : List LinkCall) (agent : AgentRow) : Prop :=
  let policy := contactPolicy toLowercase agent.contactPolicy
  let chunk := chunkOf sender recipients agent
  agent.name = sender.name ∨ policy = "open".toList ∨
    policy = "auto".toList ∧ Contacts.recentOk env agent ∨
    policy ≠ "block_all".toList ∧ (AcceptedBy projectId sender calls (env.now chunk) agent ∨
      autoContact ∧ AcceptedBy projectId sender (calls ++ meanwhile) (env.recheckNow chunk) agent)

-- What the first check finds, and what a handshake can make up for.
theorem justified_iff {autoContact : Bool} {meanwhile : List LinkCall}
    (hc : recipients.Consistent toLowercase resolve) (ha : agent ∈ recipients.agents toLowercase) :
    Justified toLowercase projectId sender recipients env autoContact calls meanwhile agent ↔
      decision toLowercase sender env
        (listApprovedContactIds (Links.empty.calls calls) env.now projectId sender.id
        (candidateIds sender recipients)) agent = .allow ∨
      contactPolicy toLowercase agent.contactPolicy ≠ "block_all".toList ∧ autoContact ∧
        AcceptedBy projectId sender (calls ++ meanwhile)
          (env.recheckNow (chunkOf sender recipients agent)) agent := by
  rw [decision, contactPolicyDecision_eq_allow_iff, List.contains_iff_mem,
    mem_approvedIds_iff hc ha]
  simp only [Justified, and_or_left]
  tauto

-- The links are read once more after the handshakes, and show who has been asked meanwhile.
theorem stillBlocked_eq_false_iff_justified {autoContact : Bool} {meanwhile : List LinkCall}
    (hc : recipients.Consistent toLowercase resolve) (hm : agent ∈ recipients.agents toLowercase)
    (hauto : autoContact)
    (hd : decision toLowercase sender env
      (listApprovedContactIds (Links.empty.calls calls) env.now projectId sender.id
      (candidateIds sender recipients)) agent = .requireApproval) :
    stillBlocked toLowercase recipients
      (listApprovedContactIds ((Links.empty.calls calls).calls meanwhile) env.recheckNow
        projectId sender.id (candidateIds sender recipients)) agent.name = false ↔
      Justified toLowercase projectId sender recipients env autoContact calls meanwhile agent := by
  have hopen : contactPolicy toLowercase agent.contactPolicy ≠ "open".toList := fun hp =>
    absurd (hd.symm.trans (contactPolicyDecision_eq_allow_iff.mpr (.inr (.inl hp)))) nofun
  rw [stillBlocked_eq_false_iff (hc.agentOf_name hm), ← Links.calls_append,
    mem_approvedIds_iff hc hm, justified_iff hc hm, or_iff_right hopen, or_iff_right (hd ▸ nofun),
    and_iff_right hauto]

-- A message is delivered if there is a reason to for every agent that it is for.
theorem enforceContacts_ok_iff (hs : SameAgent toLowercase resolve)
    (h : pushRecipients toLowercase resolve toNames cc bcc = some recipients)
    (he : cfg.contactEnforcementEnabled) :
    (recipients.agents toLowercase).map (·.id) = recipients.all.map Prod.fst ∧
      ((enforceContacts toLowercase cfg projectId sender recipients env
        (Links.empty.calls calls) autoContactIfBlocked).2 = .ok () ↔
        ∀ agent ∈ recipients.agents toLowercase,
          Justified toLowercase projectId sender recipients env
            (autoContactIfBlocked.getD cfg.messagingAutoHandshakeOnBlock) calls
            (enforceContacts toLowercase cfg projectId sender recipients env
              (Links.empty.calls calls) autoContactIfBlocked).1 agent) := by
  have hc := Recipients.Consistent.pushRecipients hs h
  refine ⟨hc.agents_ids, ?_⟩
  simp only [enforceContacts, he, Bool.not_true, Bool.false_eq_true, if_false]
  split
  case h_1 hn =>
    rw [foldlM_resolved] at hn
    split at hn
    case isFalse   => cases hn
    case isTrue hb =>
      have ⟨agent, hm, hd⟩ := hb
      have hb := contactPolicyDecision_eq_blockAll_iff.mp hd
      refine iff_of_false nofun fun h => ?_
      obtain h | h := (justified_iff hc hm).mp (h agent hm)
      · exact absurd (hd.symm.trans h) nofun
      · exact h.left hb.right
  case h_2 hn =>
    have ⟨hasked, hd⟩ := foldlM_resolved_eq_some hn
    refine iff_of_true rfl fun agent hm => (justified_iff hc hm).mpr (.inl ?_)
    refine (hd agent hm).resolve_right fun hd => ?_
    exact absurd (hasked ▸ mem_asked.mpr ⟨agent, hm, hd, rfl⟩) List.not_mem_nil
  case h_3 blocked hne hn =>
    obtain ⟨rfl, hd⟩ := foldlM_resolved_eq_some hn
    split
    case isFalse hauto =>
      have ⟨name, hname⟩ := List.exists_mem_of_ne_nil _ hne
      have ⟨agent, hm, hd, _⟩ := mem_asked.mp hname
      refine iff_of_false nofun fun h => ?_
      obtain h | h := (justified_iff hc hm).mp (h agent hm)
      · exact absurd (hd.symm.trans h) nofun
      · exact hauto h.right.left
    case isTrue hauto =>
      split
      case h_1 hf =>
        refine iff_of_true rfl fun agent hm => ?_
        obtain hd | hd := hd agent hm
        · exact (justified_iff hc hm).mpr (.inl hd)
        · have hs := List.filter_eq_nil_iff.mp hf _ (mem_asked.mpr ⟨agent, hm, hd, rfl⟩)
          exact (stillBlocked_eq_false_iff_justified hc hm hauto hd).mp
            (Bool.eq_false_of_not_eq_true hs)
      case h_2 hf =>
        have ⟨name, hname⟩ := List.exists_mem_of_ne_nil _ hf
        have ⟨hname, hs⟩ := List.mem_filter.mp hname
        obtain ⟨agent, hm, hd, rfl⟩ := mem_asked.mp hname
        refine iff_of_false nofun fun h => ?_
        exact absurd (hs.symm.trans ((stillBlocked_eq_false_iff_justified hc hm hauto hd).mpr
          (h agent hm))) nofun

-- Bob has accepted, and the message is sent before that expires.
theorem enforceContacts_ok_iff_accepted :
    let alice : AgentRow := ⟨1, 1, "Alice".toList, [], "open".toList⟩
    let bob : AgentRow := ⟨2, 1, "Bob".toList, [], "contacts_only".toList⟩
    let calls : List LinkCall := [.request 0 (1, 1) (1, 2) [] 0, .respond 5 (1, 1) (1, 2) true 60]
    ∃ recipients, pushRecipients (·.map Char.toLower) (fun _ => some bob)
      [" bob".toList, "BOB".toList] [] [] = some recipients ∧ recipients.all = [(2, .direct)] ∧
      (enforceContacts (·.map Char.toLower) ⟨true, 60, false⟩ 1 alice recipients
        ⟨[], [], fun _ => 10, 0, 0, fun _ => 0, fun _ => .failed []⟩
        (Links.empty.calls calls) none).2 = .ok () := by
  intro alice bob calls
  have hs : SameAgent (·.map Char.toLower) fun _ => some bob := fun _ _ _ _ h h' _ => by
    cases h
    cases h'
    rfl
  have h : pushRecipients (·.map Char.toLower) (fun _ => some bob) [" bob".toList, "BOB".toList] []
      [] = some _ := rfl
  refine ⟨_, h, rfl, ?_⟩
  refine (enforceContacts_ok_iff hs h rfl).right.mpr fun agent ha => ?_
  cases List.mem_singleton.mp ha
  refine .inr (.inr (.inr ⟨by decide, .inl ⟨by decide, some 60000005, ?_, by decide⟩⟩))
  exact ⟨[.request 0 (1, 1) (1, 2) [] 0], 5, 60, [], rfl, by decide,
    ⟨_, List.mem_singleton_self _, rfl, rfl⟩, nofun⟩

end Enforce

end Contacts
