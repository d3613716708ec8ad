import AgentMail.Search.Scope

open Pattern (Str)
open Schema

namespace Search

section

variable {ρ : Type} {clauses clauses' : List (Clause ρ)} {ps ps' : List PlanParam} {row : ρ}
  {part : Part ρ}

theorem holdsAll_append (h : ps.length = placeholders clauses) :
    holdsAll (clauses ++ clauses') (ps ++ ps') row =
      (holdsAll clauses ps row && holdsAll clauses' ps' row) := by
  induction clauses generalizing ps
  case nil =>
    cases List.length_eq_zero_iff.mp h
    rfl
  case cons clause clauses hi =>
    have hl : ps.length = clause.placeholders + placeholders clauses := h
    have hd : (ps.drop clause.placeholders).length = placeholders clauses := by
      rw [List.length_drop]
      omega
    have hle : clause.placeholders ≤ ps.length := by omega
    rw [List.cons_append, holdsAll, holdsAll, List.take_append_of_le_length hle,
      List.drop_append_of_le_length hle, hi hd, Bool.and_assoc]

theorem anyHolds_cons {clause : Clause ρ} (h : ps.length = clause.placeholders) :
    anyHolds (clause :: clauses) (ps ++ ps') row =
      (clause.holds ps row || anyHolds clauses ps' row) := by
  rw [anyHolds, ← h, List.take_left, List.drop_left]

theorem holdsAll_singleton {clause : Clause ρ} (h : ps.length = clause.placeholders) :
    holdsAll [clause] ps row = clause.holds ps row := by
  rw [holdsAll, ← h, List.take_length, holdsAll, Bool.and_true]

-- Further parameters are not looked at.
theorem holdsAll_fits {ps : List PlanParam} :
    holdsAll part.clauses (part.params ++ ps) row = holdsAll part.clauses part.params row := by
  have h := @holdsAll_append _ _ [] _ ps row part.fits
  have h' := @holdsAll_append _ _ [] _ [] row part.fits
  rw [List.append_nil] at h h'
  rw [h]
  rw [List.append_nil] at h'
  exact h'.symm

theorem holdsAll_all {parts : List (Part ρ)} :
    holdsAll (Part.all parts).clauses (Part.all parts).params row =
      parts.all fun part => holdsAll part.clauses part.params row := by
  induction parts
  case nil                => rfl
  case cons part parts hi =>
    rw [List.all_cons, ← hi]
    exact holdsAll_append part.fits

theorem mem_matches {plan : SearchPlan ρ} {rows : List ρ} : row ∈ plan.matches rows ↔
    plan.method ≠ .empty ∧ row ∈ rows ∧ holdsAll plan.clauses plan.params row := by
  unfold SearchPlan.matches
  split
  case isTrue h  => simp [h]
  case isFalse h => simp [h, List.mem_mergeSort]

theorem mem_matches_ofPart {query : SearchQuery} {order : ρ → ρ → Bool} {method : PlanMethod}
    {parts : List (Part ρ)} {rows : List ρ} (h : method ≠ .empty) :
    row ∈ (SearchPlan.ofPart (Part.all parts) query order method).matches rows ↔
      row ∈ rows ∧ ∀ part ∈ parts, holdsAll part.clauses part.params row := by
  simp only [mem_matches, SearchPlan.ofPart]
  rw [and_iff_right h, holdsAll_fits, holdsAll_all, List.all_eq_true]

theorem holdsAll_scopePart {ids : List Int} {column : ρ → Int} :
    holdsAll (scopePart (.projectSet ids) column).clauses
      (scopePart (.projectSet ids) column).params row ↔ ids ≠ [] → column row ∈ ids := by
  by_cases h : ids = []
  case pos => simp [scopePart, h, Part.none, holdsAll]
  case neg =>
    have ht : (ids.map PlanParam.int).take ids.length = ids.map .int :=
      List.take_of_length_le (Nat.le_of_eq (List.length_map _))
    simp [scopePart, h, Part.one, holdsAll, isIn, ht]

end

section

variable {like : Str → Str → Bool} {db : Database} {query : SearchQuery} {ids : List Int}

theorem holdsAll_unrestricted {ρ : Type} {column : ρ → Int} {row : ρ} :
    holdsAll (scopePart .unrestricted column).clauses (scopePart .unrestricted column).params row :=
  rfl

theorem mem_planMessageSearch {row : MessageJoin} {rows : List MessageJoin} :
    row ∈ (planMessageSearch like db { query with scope := .projectSet ids }).matches rows ↔
      row ∈ (planMessageSearch like db { query with scope := .unrestricted }).matches rows ∧
        (ids ≠ [] → row.m.projectId ∈ ids) := by
  have hm (scope : ScopePolicy) : messageMethod { query with scope } = messageMethod query := rfl
  by_cases h : messageMethod query = .empty
  case pos => simp [planMessageSearch, hm, h, mem_matches, SearchPlan.empty]
  case neg =>
    simp only [planMessageSearch, hm, if_neg h, mem_matches_ofPart h, List.forall_mem_cons,
      holdsAll_scopePart, holdsAll_unrestricted]
    change _ ∧ holdsAll (textPart like query).clauses (textPart like query).params row ∧ _ ↔ _
    tauto

theorem mem_planAgentSearch {row : AgentRow} {rows : List AgentRow} :
    row ∈ (planAgentSearch like { query with scope := .projectSet ids }).matches rows ↔
      row ∈ (planAgentSearch like { query with scope := .unrestricted }).matches rows ∧
        (ids ≠ [] → row.projectId ∈ ids) := by
  by_cases h : query.text = [] ∨ extractLikeTerms query.text 5 = []
  case pos => simp [planAgentSearch, h, mem_matches, SearchPlan.empty]
  case neg =>
    simp only [planAgentSearch, if_neg h, @mem_matches_ofPart _ _ _ _ (.like) _ _ nofun,
      List.forall_mem_cons, holdsAll_scopePart, holdsAll_unrestricted]
    tauto

theorem mem_planProjectSearch {row : ProjectRow} {rows : List ProjectRow} :
    row ∈ (planProjectSearch like { query with scope := .projectSet ids }).matches rows ↔
      row ∈ (planProjectSearch like { query with scope := .unrestricted }).matches rows ∧
        (ids ≠ [] → row.id ∈ ids) := by
  by_cases h : query.text = [] ∨ extractLikeTerms query.text 5 = []
  case pos => simp [planProjectSearch, h, mem_matches, SearchPlan.empty]
  case neg =>
    simp only [planProjectSearch, if_neg h, @mem_matches_ofPart _ _ _ _ (.like) _ _ nofun,
      List.forall_mem_cons, holdsAll_scopePart, holdsAll_unrestricted]
    tauto

-- A set of projects keeps the rows of these projects, unless it is empty.
theorem mem_planSearch_projectSet {row : SearchRow} :
    row ∈ planSearch like db { query with scope := .projectSet ids } ↔
      row ∈ planSearch like db { query with scope := .unrestricted } ∧
        (ids ≠ [] → row.projectId ∈ ids) := by
  unfold planSearch
  dsimp only
  split <;> cases row <;>
    simp [mem_planMessageSearch, mem_planAgentSearch, mem_planProjectSearch, SearchRow.projectId]

end

section

variable {db : Database} {now : Int} {ctx : ScopeContext} {viewer : ViewerIdentity} {m : MessageRow}
variable {result : SearchResult} {agent : AgentRow}

-- The condition that the clause for a viewer states.
theorem satisfiesScope_iff (h : ctx.viewer = some viewer) : satisfiesScope db ctx now m ↔
    m.senderId = viewer.agentId ∨
    (∃ mr ∈ db.recipients.rows, mr.messageId = m.id ∧ mr.agentId = viewer.agentId) ∨
    (m.projectId ∈ ctx.viewerProjectIds ∧ ∃ a ∈ db.agents.rows, a.id = m.senderId ∧
      a.contactPolicy ∈ ["open".toList, "auto".toList]) ∨
    ∃ al ∈ db.links.rows, (al.aAgentId = viewer.agentId ∧ al.bAgentId = m.senderId ∨
      al.bAgentId = viewer.agentId ∧ al.aAgentId = m.senderId) ∧
      al.status = "approved".toList ∧ unexpired now al := by
  have hps : (buildScopeSqlClauses db ctx).2.map (·.substitute now) =
      [.int viewer.agentId] ++ ([.int viewer.agentId] ++ (ctx.viewerProjectIds.map .int ++
        ([.int viewer.agentId, .int viewer.agentId, .int now] ++ []))) := by
    simp [buildScopeSqlClauses, h, ScopeSqlParam.substitute, Function.comp_def]
  let inProject :=
    if ctx.viewerProjectIds = [] then never else permissiveClause db ctx.viewerProjectIds.length
  have hproject : (ctx.viewerProjectIds.map PlanParam.int).length = inProject.placeholders := by
    rw [List.length_map]
    by_cases hn : ctx.viewerProjectIds = [] <;> simp [inProject, hn, never, permissiveClause]
  have hclause :
      (buildScopeSqlClauses db ctx).1 = [anyOf [equals fun m : MessageRow =>
        some (.int m.senderId), recipientClause db, inProject, contactClause db]] := by
    simp [buildScopeSqlClauses, h, inProject]
  rw [satisfiesScope, hps, hclause, holdsAll_singleton (by
    simp only [anyOf, placeholders, List.length_append, hproject, List.map_cons, List.sum_cons]
    rfl)]
  simp only [anyOf]
  rw [anyHolds_cons rfl, anyHolds_cons rfl, anyHolds_cons hproject, anyHolds_cons rfl]
  simp only [Bool.or_eq_true]
  refine or_congr ?_ (or_congr ?_ (or_congr ?_ ?_))
  · simp [equals, eq_comm]
  · simp [recipientClause, and_comm]
  · by_cases hn : ctx.viewerProjectIds = []
    case pos => simp [inProject, hn, never]
    case neg =>
      simp [inProject, hn, permissiveClause, Option.any_eq_true, Table.get?_eq_some_iff, and_assoc]
  · simp only [contactClause, anyHolds, List.any_eq_true, decide_eq_true_eq,
      Bool.false_eq_true, or_false]

theorem evaluateScope_ne_deny (hr : ResultOf m result) (h : ctx.viewer = some viewer) :
    (evaluateScope result ctx).verdict ≠ .deny ↔
      isSender result viewer ∨ isRecipient result viewer ctx ∨ hasApprovedContact result ctx ∨
        m.projectId ∈ ctx.viewerProjectIds ∧
          lookupSenderPolicy result ctx ∈ [.openPolicy, .auto] := by
  simp only [evaluateScope, hr.docKind, h, hr.projectId, Option.getD_some, ne_eq,
    not_true, if_false]
  by_cases hs : isSender result viewer
  case pos => simp [hs]
  case neg =>
    by_cases hx : isRecipient result viewer ctx
    case pos => simp [hs, hx]
    case neg =>
      by_cases hc : hasApprovedContact result ctx
      case pos => simp [hs, hx, hc]
      case neg =>
        by_cases hp : m.projectId ∈ ctx.viewerProjectIds
        case neg => simp [hs, hx, hc, hp]
        case pos => cases hl : lookupSenderPolicy result ctx <;> simp [hs, hx, hc, hp]

section

variable (hs : SendersInProject db) (hp : Prefetched db now agent ctx) (hm : m ∈ db.messages.rows)
variable (hr : ResultOf m result)

theorem agent_eq {a b : AgentRow} (ha : a ∈ db.agents.rows) (hb : b ∈ db.agents.rows)
    (h : a.id = b.id) : a = b :=
  List.inj_on_of_nodup_map db.agents.nodup ha hb h

include hs hp hm hr

theorem isSender_iff : isSender result ⟨agent.projectId, agent.id⟩ ↔ m.senderId = agent.id := by
  have ⟨a, ha, hid, hproject⟩ := hs m hm
  simp only [isSender, hr.fromAgentId, hr.projectId, Option.any_some, decide_eq_true_eq,
    Option.some.injEq, and_iff_left_iff_imp]
  intro h
  rw [← hproject, agent_eq ha hp.registered (hid.trans h)]

omit hs hm in
theorem isRecipient_iff : isRecipient result ⟨agent.projectId, agent.id⟩ ctx ↔
    ∃ mr ∈ db.recipients.rows, mr.messageId = m.id ∧ mr.agentId = agent.id := by
  rw [← hp.recipients]
  simp [isRecipient, hr.id]

theorem hasApprovedContact_iff (hl : LinksInProject db) : hasApprovedContact result ctx ↔
    ∃ al ∈ db.links.rows, (al.aAgentId = agent.id ∧ al.bAgentId = m.senderId ∨
      al.bAgentId = agent.id ∧ al.aAgentId = m.senderId) ∧ al.status = "approved".toList ∧
        unexpired now al := by
  have ⟨a, ha, hid, hproject⟩ := hs m hm
  have hc : hasApprovedContact result ctx ↔ (m.projectId, m.senderId) ∈ ctx.approvedContacts := by
    simp [hasApprovedContact, hr.fromAgentId, hr.projectId]
  rw [hc, hp.contacts]
  refine exists_congr fun al => and_congr_right fun hal => ?_
  have ⟨haa, hab⟩ := hl al hal agent hp.registered
  have ⟨hsa, hsb⟩ := hl al hal a ha
  simp only [Prod.mk.injEq]
  constructor
  case mp =>
    rintro ⟨hst, hu, ⟨⟨_, h₁⟩, ⟨_, h₂⟩⟩ | ⟨⟨_, h₁⟩, ⟨_, h₂⟩⟩⟩
    case inl => exact ⟨.inl ⟨h₁, h₂⟩, hst, hu⟩
    case inr => exact ⟨.inr ⟨h₁, h₂⟩, hst, hu⟩
  case mpr =>
    rintro ⟨⟨h₁, h₂⟩ | ⟨h₁, h₂⟩, hst, hu⟩
    case inl =>
      refine ⟨hst, hu, .inl ⟨⟨(haa h₁.symm).symm, h₁⟩, ?_, h₂⟩⟩
      rw [← hsb (hid.trans h₂.symm), hproject]
    case inr =>
      refine ⟨hst, hu, .inr ⟨⟨(hab h₁.symm).symm, h₁⟩, ?_, h₂⟩⟩
      rw [← hsa (hid.trans h₂.symm), hproject]

theorem lookupSenderPolicy_eq {a : AgentRow} (ha : a ∈ db.agents.rows) (hid : a.id = m.senderId) :
    lookupSenderPolicy result ctx = .parse a.contactPolicy := by
  have ⟨a', ha', hid', hproject⟩ := hs m hm
  cases agent_eq ha' ha (hid'.trans hid.symm)
  simp only [lookupSenderPolicy, hr.fromAgentId, hr.projectId, Option.bind_some, Option.getD_some]
  cases hf : ctx.senderPolicies.find? fun sp => sp.projectId = m.projectId ∧ sp.agentId = m.senderId
  case none =>
    have hn := List.find?_eq_none.mp hf _ ((hp.policies _).mpr ⟨a, ha, rfl⟩)
    simp [hproject, hid] at hn
  case some sp =>
    have ⟨b, hb, he⟩ := (hp.policies sp).mp (List.mem_of_find?_eq_some hf)
    have hk : sp.projectId = m.projectId ∧ sp.agentId = m.senderId := by
      simpa using List.find?_some hf
    subst he
    cases agent_eq hb ha (hk.right.trans hid.symm)
    rfl

omit hs hp hm hr in
theorem parse_of_canonical {policy : Str} (h : Canonical policy) :
    policy ∈ ["open".toList, "auto".toList] ↔
      ContactPolicyKind.parse policy ∈ [.openPolicy, .auto] := by
  constructor
  case mp =>
    intro hm
    rcases List.mem_cons.mp hm with rfl | hm
    case inl => decide
    case inr =>
      cases List.mem_singleton.mp hm
      decide
  case mpr =>
    intro hm
    refine h.resolve_right fun hn => ?_
    generalize ContactPolicyKind.parse policy = kind at hm hn
    cases kind <;> simp at hm hn

theorem satisfiesScope_iff_ne_deny (hl : LinksInProject db)
    (hc : ∀ a ∈ db.agents.rows, Canonical a.contactPolicy) :
    satisfiesScope db ctx now m ↔ (evaluateScope result ctx).verdict ≠ .deny := by
  rw [satisfiesScope_iff hp.viewer, evaluateScope_ne_deny hr hp.viewer, isSender_iff hs hp hm hr,
    isRecipient_iff hp hr, hasApprovedContact_iff hs hp hm hr hl]
  have hpolicy :
      (∃ a ∈ db.agents.rows, a.id = m.senderId ∧ a.contactPolicy ∈ ["open".toList, "auto".toList]) ↔
      lookupSenderPolicy result ctx ∈ [.openPolicy, .auto] := by
    have ⟨a, ha, hid, _⟩ := hs m hm
    rw [lookupSenderPolicy_eq hs hp hm hr ha hid, ← parse_of_canonical (hc a ha)]
    constructor
    case mp  => exact fun ⟨b, hb, hid', h⟩ => agent_eq hb ha (hid'.trans hid.symm) ▸ h
    case mpr => exact fun h => ⟨a, ha, hid, h⟩
  rw [hpolicy]
  exact or_congr_right (or_congr_right or_comm)

end

end

-- For a set of projects that is not empty, for an empty one, without a viewer, and for a viewer.
theorem scope_agrees :
    (∀ like db query ids, ids ≠ [] → AgreesWithSql like db query ids) ∧
    (∀ like db (query : SearchQuery) row, row ∈ planSearch like db { query with
      scope := .projectSet [] } ↔ row ∈ planSearch like db { query with scope := .unrestricted }) ∧
    (∀ db now ctx, ctx.viewer = none → ClauseAgrees db now ctx) ∧
    ∀ db now agent ctx, SendersInProject db → LinksInProject db →
      (∀ a ∈ db.agents.rows, Canonical a.contactPolicy) → Prefetched db now agent ctx →
        ClauseAgrees db now ctx := by
  refine ⟨fun like db query ids hi ctx hctx row => ?_, fun like db query row => ?_,
    fun db now ctx hv m hm result hr => ?_,
    fun db now agent ctx hs hl hc hp m hm result hr => satisfiesScope_iff_ne_deny hs hp hm hr hl hc⟩
  · rw [mem_planSearch_projectSet]
    simp [VisibilityContext.canSeeProject, hctx, hi]
  · rw [mem_planSearch_projectSet]
    simp
  · simp [satisfiesScope, buildScopeSqlClauses, evaluateScope, hv, holdsAll, hr.docKind]

-- A message of agent 2 to nobody, which agent 1 looks for.
def twoAgents (policy : Str) (links : Table AgentLinkRow.id) : Database where
  projects     := ⟨[⟨1, "a".toList, "/a".toList⟩], by decide⟩
  productLinks := .empty
  agents       :=
    ⟨[⟨1, 1, "BlueLake".toList, [], "auto".toList⟩, ⟨2, 1, "RedFox".toList, [], policy⟩], by simp⟩
  messages     := ⟨[⟨1, 1, 2, none, "s".toList, [], "normal".toList, 0, 0⟩], by decide⟩
  recipients   := .empty
  reservations := .empty
  releases     := .empty
  links        := links
  siblings     := .empty
  inboxStats   := .empty

def facetQuery : SearchQuery where
  text        := []
  docKind     := .message
  projectId   := some 1
  productId   := none
  importance  := []
  direction   := none
  agentName   := none
  threadId    := none
  ackRequired := none
  timeRange   := ⟨none, none⟩
  ranking     := .relevance
  limit       := none
  cursor      := none
  explain     := false
  scope       := .unrestricted
  redaction   := none

def blueLake : AgentRow :=
  ⟨1, 1, "BlueLake".toList, [], "auto".toList⟩

def blueLakeContext (policy : Str) (contacts : List (Int × Int)) : ScopeContext where
  viewer           := some ⟨1, 1⟩
  approvedContacts := contacts
  viewerProjectIds := [1]
  senderPolicies   := [⟨1, 1, .parse "auto".toList⟩, ⟨1, 2, .parse policy⟩]
  recipientMap     := []

theorem prefetched_twoAgents {policy : Str} {links : Table AgentLinkRow.id}
    {contacts : List (Int × Int)}
    (h : ∀ contact, contact ∈ contacts ↔ Contact (twoAgents policy links) 0 blueLake contact) :
    Prefetched (twoAgents policy links) 0 blueLake (blueLakeContext policy contacts) where
  registered := List.mem_cons_self
  viewer     := rfl
  contacts   := h
  policies   := by simp [blueLakeContext, twoAgents]
  recipients := by simp [blueLakeContext, twoAgents, Table.empty]

def resultOf (m : MessageRow) : SearchResult where
  docKind     := .message
  id          := m.id
  projectId   := some m.projectId
  title       := m.subject
  body        := m.bodyMd
  score       := none
  importance  := some m.importance
  ackRequired := some (m.ackRequired ≠ 0)
  createdTs   := some m.createdTs
  threadId    := m.threadId
  fromAgent   := none
  fromAgentId := some m.senderId
  toNames     := none
  ccNames     := none
  bccNames    := none

theorem resultOf_resultOf (m : MessageRow) : ResultOf m (resultOf m) :=
  ⟨rfl, rfl, rfl, rfl⟩

-- A link of agent 1 with agent 2, but with the latter in project 9.
def strayLink : Table AgentLinkRow.id :=
  ⟨[⟨1, 1, 1, 9, 2, "approved".toList, none⟩], by decide⟩

theorem sendersInProject_twoAgents {policy : Str} {links : Table AgentLinkRow.id} :
    SendersInProject (twoAgents policy links) := by
  simp [SendersInProject, twoAgents]

theorem scope_agrees_twoAgents :
    AgreesWithSql (fun _ _ => true) (twoAgents "open".toList .empty) facetQuery [1] ∧
    ClauseAgrees (twoAgents "open".toList .empty) 0 ⟨none, [], [], [], []⟩ ∧
    ClauseAgrees (twoAgents "open".toList .empty) 0 (blueLakeContext "open".toList []) := by
  have hp :
      Prefetched (twoAgents "open".toList .empty) 0 blueLake (blueLakeContext "open".toList []) :=
    prefetched_twoAgents (by simp [Contact, twoAgents, Table.empty])
  refine ⟨scope_agrees.left _ _ _ _ (by rintro ⟨⟩), scope_agrees.right.right.left _ _ _ rfl,
    scope_agrees.right.right.right _ _ _ _ sendersInProject_twoAgents ?_ ?_ hp⟩
  · simp [LinksInProject, twoAgents, Table.empty]
  · intro a ha
    rcases List.mem_cons.mp ha with rfl | ha
    case inl => exact .inl (by decide)
    case inr =>
      cases List.mem_singleton.mp ha
      exact .inl (by decide)

-- An empty set of projects selects everything. A policy in other letters is parsed, but not
-- selected. The clause does not look at the projects of a link.
theorem not_scope_agrees :
    ¬AgreesWithSql (fun _ _ => true) (twoAgents "open".toList .empty) facetQuery [] ∧
    (SendersInProject (twoAgents "Open".toList .empty) ∧
      Prefetched (twoAgents "Open".toList .empty) 0 blueLake (blueLakeContext "Open".toList []) ∧
      ¬ClauseAgrees (twoAgents "Open".toList .empty) 0 (blueLakeContext "Open".toList [])) ∧
    SendersInProject (twoAgents "block_all".toList strayLink) ∧
      Prefetched (twoAgents "block_all".toList strayLink) 0 blueLake
        (blueLakeContext "block_all".toList [(9, 2)]) ∧
      ¬ClauseAgrees (twoAgents "block_all".toList strayLink) 0
        (blueLakeContext "block_all".toList [(9, 2)]) := by
  refine ⟨fun h => ?_, ⟨sendersInProject_twoAgents, prefetched_twoAgents ?_, fun h => ?_⟩,
    sendersInProject_twoAgents, prefetched_twoAgents ?_, fun h => ?_⟩
  · have h := h ⟨[], [], .projectSet [], ⟨false, false, false, []⟩⟩ rfl
      (.message ⟨⟨1, 1, 2, none, "s".toList, [], "normal".toList, 0, 0⟩,
        ⟨2, 1, "RedFox".toList, [], "open".toList⟩⟩)
    refine absurd (h.mp (List.mem_map.mpr ⟨_, mem_matches.mpr ⟨?_, ?_, ?_⟩, rfl⟩)).right ?_
    all_goals decide
  · simp [Contact, twoAgents, Table.empty]
  · have h := h _ List.mem_cons_self _ (resultOf_resultOf _)
    exact absurd (h.mpr (by decide)) (by decide)
  · intro contact
    simp only [Contact, twoAgents, strayLink, List.mem_singleton, exists_eq_left]
    constructor
    case mp =>
      rintro rfl
      exact ⟨trivial, rfl, .inl ⟨rfl, rfl⟩⟩
    case mpr =>
      rintro ⟨_, _, ⟨_, h⟩ | ⟨h, _⟩⟩
      case inl => exact h.symm
      case inr => exact absurd h (by decide)
  · have h := h _ List.mem_cons_self _ (resultOf_resultOf _)
    exact absurd (h.mp (by decide)) (by decide)

end Search
