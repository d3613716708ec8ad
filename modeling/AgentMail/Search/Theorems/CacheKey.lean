import AgentMail.Search.CacheKey
import AgentMail.Search.Theorems.Scope
import Mathlib.Data.List.Perm.Basic

open Pattern (Str trim)
open Schema

namespace Search

section Hash

variable {α β : Type} {value : α → HashValue} {a a' : Option α} {rest rest' : List HashValue}
  {tag tag' : String}

def Starts (tag : String) (values : List HashValue) : Prop :=
  values.head? = some (.text tag.toList)

@[simp]
theorem starts_tagged : Starts tag (tagged tag' value a) ↔ a.isSome ∧ tag' = tag := by
  cases a <;> simp [Starts, tagged, -String.reduceToList, String.toList_inj]

@[simp]
theorem starts_tagged_append :
    Starts tag (tagged tag' value a ++ rest) ↔ a.isSome ∧ tag' = tag ∨ a = none ∧
      Starts tag rest := by
  cases a <;> simp [Starts, tagged, -String.reduceToList, String.toList_inj]

@[simp]
theorem starts_hashDateRange_append {range : Option DateRange} :
    Starts tag (hashDateRange range ++ rest) ↔ range.isSome ∧ "date_range" = tag ∨ range = none ∧
      Starts tag rest := by
  cases range <;> simp [Starts, hashDateRange, -String.reduceToList, String.toList_inj]

theorem tagged_append_inj (hv : Function.Injective value) (h : ¬Starts tag rest)
    (h' : ¬Starts tag rest') (he : tagged tag value a ++ rest = tagged tag value a' ++ rest') :
    a = a' ∧ rest = rest' := by
  cases a <;> cases a'
  case none.none => exact ⟨rfl, he⟩
  case none.some => exact absurd (congrArg List.head? he) h
  case some.none => exact absurd (congrArg List.head? he.symm) h'
  case some.some =>
    obtain ⟨-, hb⟩ := List.cons.inj he
    obtain ⟨hb, hr⟩ := List.cons.inj hb
    exact ⟨congrArg some (hv hb), hr⟩

theorem text_injective : Function.Injective HashValue.text :=
  fun _ _ => HashValue.text.inj

theorem int_injective : Function.Injective HashValue.int :=
  fun _ _ => HashValue.int.inj

theorem hashDateRange_append_inj {range range' : Option DateRange}
    (h : ∀ tag ∈ ["date_range", "start", "end"], ¬Starts tag rest)
    (h' : ∀ tag ∈ ["date_range", "start", "end"], ¬Starts tag rest')
    (he : hashDateRange range ++ rest = hashDateRange range' ++ rest') : range = range' ∧
    rest = rest' := by
  simp only [List.forall_mem_cons] at h h'
  cases range <;> cases range'
  case none.none => exact ⟨rfl, he⟩
  case none.some => exact absurd (congrArg List.head? he) h.left
  case some.none => exact absurd (congrArg List.head? he.symm) h'.left
  case some.some range range' =>
    simp only [hashDateRange, List.cons_append, List.append_assoc, List.cons.injEq, true_and] at he
    have ⟨hstart, he⟩ := tagged_append_inj int_injective (by simp [h]) (by simp [h']) he
    have ⟨hstop, hr⟩ := tagged_append_inj int_injective h.right.right.left h'.right.right.left he
    have hd : range = range' := by
      cases range
      cases range'
      exact DateRange.mk.injEq .. ▸ ⟨hstart, hstop⟩
    exact ⟨congrArg some hd, hr⟩

-- Every tag differs from those behind it, which tells where a filter that is not set is left out.
theorem hashFilter_inj {filter filter' : SearchFilter}
    (h : hashFilter filter = hashFilter filter') :
    filter.sender = filter'.sender ∧ filter.agent = filter'.agent ∧
      filter.threadId = filter'.threadId ∧ filter.dateRange = filter'.dateRange := by
  have ⟨hsender, he⟩ :=
    tagged_append_inj text_injective (by simp) (by simp) (HashValue.digest.inj h)
  have ⟨hagent, he⟩ := tagged_append_inj text_injective (by simp) (by simp) he
  have ⟨_, he⟩ := tagged_append_inj int_injective (by simp) (by simp) he
  have ⟨hthread, he⟩ := tagged_append_inj text_injective (by simp) (by simp) he
  have ⟨hrange, _⟩ := hashDateRange_append_inj (by simp) (by simp) he
  exact ⟨hsender, hagent, hthread, hrange⟩

end Hash

section Scope

variable {scope scope' : ScopePolicy} {ids ids' : List Int}

theorem perm_of_sorted {α : Type} {le : α → α → Bool} {l l' : List α}
    (h : l.mergeSort le = l'.mergeSort le) : l.Perm l' :=
  (List.mergeSort_perm l le).symm.trans (h ▸ List.mergeSort_perm l' le)

-- The order of a set of projects is left out.
theorem eq_or_perm_of_hashScope (h : hashScope scope = hashScope scope') :
    scope = scope' ∨ ∃ ids ids', ids.Perm ids' ∧ scope = .projectSet ids ∧
      scope' = .projectSet ids' := by
  cases scope <;> cases scope' <;>
    simp only [hashScope, List.cons.injEq, HashValue.text.injEq, String.toList_inj, reduceCtorEq,
      String.reduceEq, false_and, true_and, and_true] at h
  case unrestricted.unrestricted => exact .inl rfl
  case callerScoped.callerScoped => exact .inl (congrArg _ h)
  case projectSet.projectSet     =>
    have hs := List.map_injective_iff.mpr int_injective h
    exact .inr ⟨_, _, perm_of_sorted hs, rfl, rfl⟩

theorem scopePolicyLabel_congr (h : hashScope scope = hashScope scope') :
    scopePolicyLabel scope = scopePolicyLabel scope' := by
  rcases eq_or_perm_of_hashScope h with rfl | ⟨ids, ids', hp, rfl, rfl⟩
  · rfl
  · exact congrArg (fun count : Nat => "project_set:".toList ++ (toString count).toList)
      hp.length_eq

theorem perm_eq_nil (hp : ids.Perm ids') : ids = [] ↔ ids' = [] :=
  ⟨fun h => (h ▸ hp).nil_eq.symm, fun h => (h ▸ hp).eq_nil⟩

variable {ρ : Type} {row : ρ} {column : ρ → Int}

theorem holdsAll_scopePart_congr (h : hashScope scope = hashScope scope') :
    holdsAll (scopePart scope column).clauses (scopePart scope column).params row =
      holdsAll (scopePart scope' column).clauses (scopePart scope' column).params row := by
  rcases eq_or_perm_of_hashScope h with rfl | ⟨ids, ids', hp, rfl, rfl⟩
  · rfl
  · rw [Bool.eq_iff_iff, holdsAll_scopePart, holdsAll_scopePart, hp.mem_iff, Ne, perm_eq_nil hp]

theorem facets_scopePart_congr (h : hashScope scope = hashScope scope') :
    (scopePart scope column).facets = (scopePart scope' column).facets := by
  rcases eq_or_perm_of_hashScope h with rfl | ⟨ids, ids', hp, rfl, rfl⟩
  · rfl
  · simp only [scopePart, perm_eq_nil hp]
    split <;> rfl

variable {query : SearchQuery}

theorem scopeSql_congr (h : hashScope query.scope = hashScope scope) (column : String) :
    scopeSql query column = scopeSql { query with scope } column := by
  unfold scopeSql
  dsimp only
  rcases eq_or_perm_of_hashScope h with rfl | ⟨ids, ids', hp, hs, rfl⟩
  · rfl
  · simp only [hs, perm_eq_nil hp, List.map_const', hp.length_eq]

end Scope

section Plan

variable {ρ : Type} {query query' : SearchQuery} {parts parts' : List (Part ρ)}
  {order : ρ → ρ → Bool} {method : PlanMethod}

theorem rows_ofPart {part : Part ρ} (rows : List ρ) :
    (SearchPlan.ofPart part query order method).rows rows =
      ((SearchPlan.ofPart part query order method).matches rows).take query.effectiveLimit := by
  simp [SearchPlan.rows, SearchPlan.ofPart]

theorem rows_congr (hl : query.effectiveLimit = query'.effectiveLimit)
    (h : ∀ row, (parts.all fun part => holdsAll part.clauses part.params row) =
      parts'.all fun part => holdsAll part.clauses part.params row) (rows : List ρ) :
    (SearchPlan.ofPart (.all parts) query order method).rows rows =
      (SearchPlan.ofPart (.all parts') query' order method).rows rows := by
  have hp :
      holdsAll (Part.all parts).clauses ((Part.all parts).params ++ [.int query.effectiveLimit]) =
      holdsAll (Part.all parts').clauses ((Part.all parts').params ++
        [.int query'.effectiveLimit]) := by
    funext row
    rw [holdsAll_fits, holdsAll_fits, holdsAll_all, holdsAll_all, h]
  rw [rows_ofPart, rows_ofPart, hl]
  dsimp only [SearchPlan.matches, SearchPlan.ofPart]
  rw [hp]

theorem facets_all : (Part.all parts).facets = parts.flatMap (·.facets) := by
  induction parts
  case nil                => rfl
  case cons part parts hi => exact congrArg (part.facets ++ ·) hi

theorem explain_congr (hf : parts.flatMap (·.facets) = parts'.flatMap (·.facets))
    (hs : scopePolicyLabel query.scope = scopePolicyLabel query'.scope) (sql : Str) :
    (SearchPlan.ofPart (.all parts) query order method).explain sql =
      (SearchPlan.ofPart (.all parts') query' order method).explain sql := by
  simp only [SearchPlan.explain, SearchPlan.ofPart, facets_all, hf, hs]

end Plan

section Query

variable {query : SearchQuery} {limit : Option Nat} {scope : ScopePolicy}
  {redaction : Option RedactionConfig} {options : SearchOptions} {env : Env}

-- A plan that depends on the scope through its last part, and on the limit.
theorem scopedPlan_congr {ρ : Type} (parts : List (Part ρ)) {projectId : ρ → Int}
    {order : ρ → ρ → Bool} {empty : Prop} [Decidable empty]
    (hl : query.effectiveLimit = { query with limit }.effectiveLimit)
    (hs : hashScope query.scope = hashScope scope) (sql : Str) (rows : List ρ) :
    let plan (query : SearchQuery) : SearchPlan ρ :=
      if empty then .empty (scopePolicyLabel query.scope)
      else .ofPart (.all (parts ++ [scopePart query.scope projectId])) query order .like
    (plan query).rows rows = (plan { query with limit, scope, redaction }).rows rows ∧
      (plan query).explain sql = (plan { query with limit, scope, redaction }).explain sql := by
  dsimp only
  split
  case isTrue  => exact ⟨rfl, by rw [scopePolicyLabel_congr hs]⟩
  case isFalse =>
    refine ⟨rows_congr hl (fun row => ?_) rows, explain_congr ?_ (scopePolicyLabel_congr hs) sql⟩
    · simp only [List.all_append, List.all_cons, holdsAll_scopePart_congr hs]
    · simp only [List.flatMap_append, List.flatMap_cons, facets_scopePart_congr hs]

theorem planAgentSearch_congr (hl : query.effectiveLimit = { query with limit }.effectiveLimit)
    (hs : hashScope query.scope = hashScope scope) (like : Str → Str → Bool) (sql : Str)
    (rows : List AgentRow) :
    (planAgentSearch like query).rows rows =
      (planAgentSearch like { query with limit, scope, redaction }).rows rows ∧
      (planAgentSearch like query).explain sql =
        (planAgentSearch like { query with limit, scope, redaction }).explain sql :=
  scopedPlan_congr [_, _] hl hs sql rows

theorem planProjectSearch_congr (hl : query.effectiveLimit = { query with limit }.effectiveLimit)
    (hs : hashScope query.scope = hashScope scope) (like : Str → Str → Bool) (sql : Str)
    (rows : List ProjectRow) : (planProjectSearch like query).rows rows =
        (planProjectSearch like { query with limit, scope, redaction }).rows rows ∧
      (planProjectSearch like query).explain sql =
        (planProjectSearch like { query with limit, scope, redaction }).explain sql :=
  scopedPlan_congr [_] hl hs sql rows

theorem method_planAgentSearch {like : Str → Str → Bool} : (planAgentSearch like query).method =
    if query.text = [] ∨ extractLikeTerms query.text 5 = [] then .empty else .like := by
  unfold planAgentSearch
  dsimp only
  split <;> rfl

theorem method_planProjectSearch {like : Str → Str → Bool} : (planProjectSearch like query).method =
    if query.text = [] ∨ extractLikeTerms query.text 5 = [] then .empty else .like := by
  unfold planProjectSearch
  dsimp only
  split <;> rfl

variable {assistance : Option QueryAssistance} {explain : Option QueryExplain}

theorem finishScopedResponse_congr (hl : query.effectiveLimit = { query with limit }.effectiveLimit)
    (results : List SearchResult) : finishScopedResponse query options results assistance explain =
      finishScopedResponse { query with limit, scope, redaction } options results assistance
        explain := by
  have hc : computeNextCursor results query.effectiveLimit query.ranking =
      computeNextCursor results { query with limit }.effectiveLimit query.ranking := by rw [hl]
  unfold finishScopedResponse
  dsimp only
  rw [hc]
  rfl

theorem executeAgentSearch_congr (hl : query.effectiveLimit = { query with limit }.effectiveLimit)
    (hs : hashScope query.scope = hashScope scope) :
    executeAgentSearch query env options assistance =
      executeAgentSearch { query with limit, scope, redaction } env options assistance := by
  have hsql : agentSql query = agentSql { query with limit, scope, redaction } := by
    unfold agentSql
    rw [scopeSql_congr hs]
    rfl
  have hp := @planAgentSearch_congr query limit scope redaction hl hs env.like
  unfold executeAgentSearch
  dsimp only
  rw [method_planAgentSearch, method_planAgentSearch, hsql, (hp [] env.db.agents.rows).left,
    (hp _ []).right]
  exact finishScopedResponse_congr hl _

theorem executeProjectSearch_congr (hl : query.effectiveLimit = { query with limit }.effectiveLimit)
    (hs : hashScope query.scope = hashScope scope) :
    executeProjectSearch query env options assistance =
      executeProjectSearch { query with limit, scope, redaction } env options assistance := by
  have hsql : projectSql query = projectSql { query with limit, scope, redaction } := by
    unfold projectSql
    rw [scopeSql_congr hs]
    rfl
  have hp := @planProjectSearch_congr query limit scope redaction hl hs env.like
  unfold executeProjectSearch
  dsimp only
  rw [method_planProjectSearch, method_planProjectSearch, hsql, (hp [] env.db.projects.rows).left,
    (hp _ []).right]
  exact finishScopedResponse_congr hl _

theorem fetchLimit_congr (hl : query.effectiveLimit = { query with limit }.effectiveLimit)
    (engine : SearchEngine) :
    fetchLimit query engine = fetchLimit { query with limit, scope, redaction } engine := by
  have hl' : { query with limit, scope, redaction }.effectiveLimit = query.effectiveLimit := hl.symm
  unfold fetchLimit paginationFetchLimit lexicalCandidateLimit legacyCandidateLimit
  rw [hl']
  rfl

theorem lexicalResults_congr (hl : query.effectiveLimit = { query with limit }.effectiveLimit)
    (explicit : Bool) :
    lexicalResults query env explicit = lexicalResults { query with
      limit, scope, redaction } env explicit := by
  unfold lexicalResults
  dsimp only
  rw [← fetchLimit_congr hl]
  rfl

theorem buildV3QueryExplain_congr (hs : hashScope query.scope = hashScope scope)
    (engine : SearchEngine) (rerankFacets : List Str) :
    buildV3QueryExplain query engine rerankFacets =
      buildV3QueryExplain { query with limit, scope, redaction } engine rerankFacets := by
  have hf :
      collectQueryFacets query = collectQueryFacets { query with limit, scope, redaction } := by
    unfold collectQueryFacets
    rcases eq_or_perm_of_hashScope hs with rfl | ⟨ids, ids', hp, h, rfl⟩
    · rfl
    · rw [h]
  unfold buildV3QueryExplain
  rw [hf]

theorem finishSearch_congr (hl : query.effectiveLimit = { query with limit }.effectiveLimit)
    (hs : hashScope query.scope = hashScope scope) (engine : SearchEngine)
    (rawResults : List SearchResult) (preserve : Bool) (rerankFacets : List Str) :
    finishSearch query env options engine rawResults preserve rerankFacets assistance =
      finishSearch { query with limit, scope, redaction } env options engine rawResults preserve
        rerankFacets
        assistance := by
  have hl' : { query with limit, scope, redaction }.effectiveLimit = query.effectiveLimit := hl.symm
  unfold finishSearch
  dsimp only
  rw [hl', buildV3QueryExplain_congr hs]
  exact finishScopedResponse_congr hl _

theorem executeSearch_congr (hl : query.effectiveLimit = { query with limit }.effectiveLimit)
    (hs : hashScope query.scope = hashScope scope) :
    executeSearch query env options = executeSearch { query with
      limit, scope, redaction } env options := by
  unfold executeSearch
  dsimp only
  rw [← executeAgentSearch_congr hl hs, ← executeProjectSearch_congr hl hs,
    ← lexicalResults_congr hl, ← fetchLimit_congr hl]
  simp only [← finishSearch_congr hl hs]
  rfl

end Query

section Options

variable {ctx ctx' : ScopeContext} {options options' : SearchOptions} {result : SearchResult}

theorem mem_sortDedup {α : Type} [DecidableEq α] {le : α → α → Bool} {l : List α} {a : α} :
    a ∈ sortDedup le l ↔ a ∈ l := by
  rw [sortDedup, List.mem_dedup, List.mem_mergeSort]

theorem mem_iff_of_sortDedup {α : Type} [DecidableEq α] {le : α → α → Bool} {l l' : List α}
    (h : sortDedup le l = sortDedup le l') (a : α) : a ∈ l ↔ a ∈ l' := by
  rw [← @mem_sortDedup _ _ le l, h, mem_sortDedup]

theorem ContactPolicyKind.asStr_injective : Function.Injective ContactPolicyKind.asStr := by
  intro kind kind' h
  cases kind <;> cases kind' <;> first | rfl | exact absurd h (by decide)

theorem mem_sortedPolicies {policies : List SenderPolicy} {sp : SenderPolicy} :
    (sp.projectId, sp.agentId, sp.policy.asStr) ∈ sortedPolicies policies ↔ sp ∈ policies := by
  rw [sortedPolicies, mem_sortDedup]
  refine List.mem_map_of_injective fun sp sp' h => ?_
  simp only [Prod.mk.injEq] at h
  cases sp
  cases sp'
  exact SenderPolicy.mk.injEq .. ▸ ⟨h.left, h.right.left,
    ContactPolicyKind.asStr_injective h.right.right⟩

theorem exists_sortedRecipients {recipients : List RecipientEntry} {messageId agentId : Int} :
    (∃ entry ∈ sortedRecipients recipients, entry.1 = messageId ∧ agentId ∈ entry.2) ↔
      ∃ entry ∈ recipients, entry.messageId = messageId ∧ agentId ∈ entry.agentIds := by
  simp [sortedRecipients, mem_sortDedup]

theorem hashViewer_append_inj {viewer viewer' : Option ViewerIdentity} {rest rest' : List HashValue}
    (h : hashViewer viewer ++ rest = hashViewer viewer' ++ rest') : viewer = viewer' ∧
    rest = rest' := by
  cases viewer <;> cases viewer' <;>
    simp only [hashViewer, List.cons_append, List.nil_append, List.cons.injEq, HashValue.text.injEq,
      HashValue.int.injEq, String.toList_inj, String.reduceEq, false_and, true_and] at h
  case none.none => exact ⟨rfl, h⟩
  case some.some viewer viewer' =>
    cases viewer
    cases viewer'
    exact ⟨congrArg some (ViewerIdentity.mk.injEq .. ▸ ⟨h.left, h.right.left⟩), h.right.right⟩

theorem contact_injective : Function.Injective fun contact : Int × Int =>
    HashValue.list [.int contact.1, .int contact.2] := by
  intro contact contact' h
  simp only [HashValue.list.injEq, List.cons.injEq, HashValue.int.injEq, and_true] at h
  exact Prod.ext h.left h.right

theorem policy_injective : Function.Injective fun policy : Int × Int × Str =>
    HashValue.list [.int policy.1, .int policy.2.1, .text policy.2.2] := by
  intro policy policy' h
  simp only [HashValue.list.injEq, List.cons.injEq, HashValue.int.injEq,
    HashValue.text.injEq, and_true] at h
  exact Prod.ext h.left (Prod.ext h.right.left h.right.right)

theorem recipient_injective : Function.Injective fun entry : Int × List Int =>
    HashValue.list [.int entry.1, .list (entry.2.map .int)] := by
  intro entry entry' h
  simp only [HashValue.list.injEq, List.cons.injEq, HashValue.int.injEq, and_true] at h
  exact Prod.ext h.left (List.map_injective_iff.mpr int_injective h.right)

structure ScopeContext.Agrees (ctx ctx' : ScopeContext) : Prop where
  viewer     : ctx.viewer = ctx'.viewer
  contacts   : ∀ contact, contact ∈ ctx.approvedContacts ↔ contact ∈ ctx'.approvedContacts
  projects   : ∀ projectId, projectId ∈ ctx.viewerProjectIds ↔ projectId ∈ ctx'.viewerProjectIds
  policies   : ∀ sp, sp ∈ ctx.senderPolicies ↔ sp ∈ ctx'.senderPolicies
  recipients : ∀ messageId agentId,
    (∃ entry ∈ ctx.recipientMap, entry.messageId = messageId ∧ agentId ∈ entry.agentIds) ↔
      ∃ entry ∈ ctx'.recipientMap, entry.messageId = messageId ∧ agentId ∈ entry.agentIds

theorem agrees_of_cacheAuthorizationDiscriminator
    (h : cacheAuthorizationDiscriminator options = cacheAuthorizationDiscriminator options') :
    options.effectiveScope.Agrees options'.effectiveScope ∧
      options.effectiveRedaction = options'.effectiveRedaction := by
  have ⟨hviewer, hr⟩ := hashViewer_append_inj (HashValue.digest.inj h)
  simp only [List.cons.injEq, HashValue.list.injEq, HashValue.flag.injEq,
    HashValue.text.injEq, and_true] at hr
  have ⟨hcontacts, hprojects, hpolicies, hrecipients, hbody, hsender, hthread, hplaceholder⟩ := hr
  have hredaction : options.effectiveRedaction = options'.effectiveRedaction := by
    cases hred : options.effectiveRedaction
    cases hred' : options'.effectiveRedaction
    rw [hred, hred'] at hbody hsender hthread hplaceholder
    exact RedactionPolicy.mk.injEq .. ▸ ⟨hbody, hsender, hthread, hplaceholder⟩
  refine ⟨?_, hredaction⟩
  constructor
  case viewer     => exact hviewer
  case contacts   =>
    exact mem_iff_of_sortDedup (List.map_injective_iff.mpr contact_injective hcontacts)
  case projects   => exact mem_iff_of_sortDedup (List.map_injective_iff.mpr int_injective hprojects)
  case policies   =>
    intro sp
    rw [← mem_sortedPolicies, List.map_injective_iff.mpr policy_injective hpolicies,
      mem_sortedPolicies]
  case recipients =>
    intro messageId agentId
    rw [← exists_sortedRecipients, List.map_injective_iff.mpr recipient_injective hrecipients,
      exists_sortedRecipients]

theorem isRecipient_congr (h : ctx.Agrees ctx') (viewer : ViewerIdentity) :
    isRecipient result viewer ctx = isRecipient result viewer ctx' := by
  rw [Bool.eq_iff_iff, isRecipient, isRecipient, List.any_eq_true, List.any_eq_true]
  simp only [decide_eq_true_eq]
  exact h.recipients result.id viewer.agentId

theorem hasApprovedContact_congr (h : ctx.Agrees ctx') :
    hasApprovedContact result ctx = hasApprovedContact result ctx' := by
  simp only [hasApprovedContact, h.contacts]

theorem find?_policy_congr (h : ctx.Agrees ctx') (hp : ctx.OnePolicy) (projectId agentId : Int) :
    ctx.senderPolicies.find? (fun sp => sp.projectId = projectId ∧ sp.agentId = agentId) =
      ctx'.senderPolicies.find? fun sp => sp.projectId = projectId ∧ sp.agentId = agentId := by
  rcases hf : ctx.senderPolicies.find? _ with _ | sp
  case none =>
    rw [List.find?_eq_none] at hf
    exact (List.find?_eq_none.mpr fun sp hm => hf sp ((h.policies sp).mpr hm)).symm
  case some =>
    have hm := (h.policies sp).mp (List.mem_of_find?_eq_some hf)
    rcases hf' : ctx'.senderPolicies.find? _ with _ | sp'
    case none => exact absurd (List.find?_some hf) (List.find?_eq_none.mp hf' sp hm)
    case some =>
      have hs : sp.projectId = projectId ∧ sp.agentId = agentId := by simpa using List.find?_some hf
      have hs' : sp'.projectId = projectId ∧ sp'.agentId = agentId := by
        simpa using List.find?_some hf'
      have hm' := (h.policies sp').mpr (List.mem_of_find?_eq_some hf')
      exact congrArg some (hp sp (List.mem_of_find?_eq_some hf) sp' hm'
        (hs.left.trans hs'.left.symm)
        (hs.right.trans hs'.right.symm))

theorem evaluateScope_congr (h : ctx.Agrees ctx') (hp : ctx.OnePolicy) :
    evaluateScope result ctx = evaluateScope result ctx' := by
  have hl : lookupSenderPolicy result ctx = lookupSenderPolicy result ctx' := by
    simp only [lookupSenderPolicy, find?_policy_congr h hp]
  unfold evaluateScope
  simp only [h.viewer, isRecipient_congr h, hasApprovedContact_congr h, hl, h.projects]

theorem applyScope_congr (h : ctx.Agrees ctx') (hp : ctx.OnePolicy) (redaction : RedactionPolicy)
    (results : List SearchResult) :
    applyScope ctx redaction results = applyScope ctx' redaction results := by
  have he (result : SearchResult) : evaluateScope result ctx = evaluateScope result ctx' :=
    evaluateScope_congr h hp
  have hs : scopeResult ctx redaction = scopeResult ctx' redaction := by
    funext result
    simp only [scopeResult, he]
  have ha : auditResult ctx = auditResult ctx' := by
    funext result
    simp only [auditResult, he, h.viewer]
  simp only [applyScope, hs, ha, he]

variable {query : SearchQuery} {env : Env} {assistance : Option QueryAssistance}

theorem finishScopedResponse_options (h : options.effectiveScope.Agrees options'.effectiveScope)
    (hp : options.effectiveScope.OnePolicy)
    (hr : options.effectiveRedaction = options'.effectiveRedaction) (results : List SearchResult)
    (explain : Option QueryExplain) :
    finishScopedResponse query options results assistance explain =
      finishScopedResponse query options' results assistance explain := by
  have ha := applyScope_congr h hp options.effectiveRedaction results
  have hv := h.viewer
  rw [hr] at ha
  unfold SearchOptions.effectiveScope SearchOptions.effectiveRedaction at *
  unfold finishScopedResponse
  dsimp only
  rw [hr, ha, hv]

theorem executeSearch_options (h : options.effectiveScope.Agrees options'.effectiveScope)
    (hp : options.effectiveScope.OnePolicy)
    (hr : options.effectiveRedaction = options'.effectiveRedaction)
    (hg : options.searchEngine.getD env.engine = options'.searchEngine.getD env.engine)
    (he : query.docKind = .message ∨ query.docKind = .thread →
      (options.searchEngine = some .lexical ↔ options'.searchEngine = some .lexical)) :
    executeSearch query env options = executeSearch query env options' := by
  unfold executeSearch executeAgentSearch executeProjectSearch finishSearch
  simp only [finishScopedResponse_options h hp hr, hg]
  cases hk : query.docKind
  case agent   => rfl
  case project => rfl
  case message => simp only [he (.inl hk)]
  case thread  => simp only [he (.inr hk)]

end Options

section Key

variable {query query' : SearchQuery} {options options' : SearchOptions} {toLowercase : Str → Str}
  {sqliteKey : Str} {configured : SearchEngine} {cacheEpoch : Nat} {env : Env}

theorem cacheEngineDiscriminator_injective : Function.Injective cacheEngineDiscriminator := by
  intro engine engine' h
  cases engine <;> cases engine' <;> first | rfl | exact absurd h (by decide)

theorem directionLabel_injective : Function.Injective directionLabel := by
  intro direction direction' h
  rcases direction with _ | _ | _ <;> rcases direction' with
    _ | _ | _ <;> first | rfl | exact absurd h (by decide)

theorem RankingMode.label_injective : Function.Injective RankingMode.label := by
  intro ranking ranking' h
  cases ranking <;> cases ranking' <;> first | rfl | exact absurd h (by decide)

theorem ofOption_injective {α : Type} {value : α → HashValue} (hv : Function.Injective value) :
    Function.Injective (HashValue.ofOption value) := by
  intro a a' h
  cases a <;> cases a' <;> simp only [HashValue.ofOption, HashValue.present.injEq,
    reduceCtorEq] at h
  case none.none => rfl
  case some.some => exact congrArg some (hv h)

-- What two queries with one discriminator have in common.
structure SameScope (query query' : SearchQuery) : Prop where
  productId   : query.productId = query'.productId
  projectId   : query.projectId = query'.projectId
  docKind     : query.docKind = query'.docKind
  ackRequired : query.ackRequired = query'.ackRequired
  direction   : query.direction = query'.direction
  ranking     : query.ranking = query'.ranking
  explain     : query.explain = query'.explain
  scope       : hashScope query.scope = hashScope query'.scope

theorem Importance.asStr_injective : Function.Injective Importance.asStr := by
  intro level level' h
  cases level <;> cases level' <;> first | rfl | exact absurd h (by decide)

-- The tag of a scope is no name of a level, which tells where the levels end.
theorem head_levels_append_hashScope (scope : ScopePolicy) :
    ∃ tag rest, hashScope scope = .text tag :: rest ∧ ∀ level : Importance, level.asStr ≠ tag := by
  cases scope <;> refine ⟨_, _, rfl, fun level => ?_⟩ <;> cases level <;> decide

theorem levels_append_inj {levels levels' : List Str}
    (hl : ∀ s ∈ levels, ∃ level : Importance, level.asStr = s)
    (hl' : ∀ s ∈ levels', ∃ level : Importance, level.asStr = s) {scope scope' : ScopePolicy}
    (h : levels.map .text ++ hashScope scope = levels'.map .text ++ hashScope scope') :
    levels = levels' ∧ hashScope scope = hashScope scope' := by
  induction levels generalizing levels'
  case nil =>
    cases levels'
    case nil       => exact ⟨rfl, h⟩
    case cons s' _ =>
      have ⟨tag, rest, hs, ht⟩ := head_levels_append_hashScope scope
      have ⟨level, hv⟩ := hl' s' List.mem_cons_self
      have h := HashValue.text.inj (List.cons.inj (hs.symm.trans h)).left
      exact absurd (hv.trans h.symm) (ht level)
  case cons s levels hi =>
    cases levels'
    case nil          =>
      have ⟨tag, rest, hs, ht⟩ := head_levels_append_hashScope scope'
      have ⟨level, hv⟩ := hl s List.mem_cons_self
      have h := HashValue.text.inj (List.cons.inj (h.trans hs)).left
      exact absurd (hv.trans h) (ht level)
    case cons s' levels' =>
      have ⟨hd, h⟩ := List.cons.inj h
      have ⟨ht, hr⟩ := hi (fun t ht => hl t (List.mem_cons_of_mem _ ht))
        (fun t ht => hl' t (List.mem_cons_of_mem _ ht)) h
      exact ⟨List.cons_eq_cons.mpr ⟨HashValue.text.inj hd, ht⟩, hr⟩

theorem of_cacheScopeDiscriminator
    (h : cacheScopeDiscriminator query = cacheScopeDiscriminator query') :
    SameScope query query' ∧ query.importance.Perm query'.importance := by
  have hd := HashValue.digest.inj h
  simp only [List.cons_append, List.nil_append, List.cons.injEq, HashValue.docKind.injEq,
    HashValue.text.injEq] at hd
  have ⟨hproduct, hproject, hkind, hack, hdirection, hranking, hexplain, hd⟩ := hd
  have hlevel (query : SearchQuery) :
      ∀ s ∈ (query.importance.map (·.asStr)).mergeSort (· ≤ ·), ∃ level :
        Importance, level.asStr = s := by
    intro s hm
    have ⟨level, _, hs⟩ := List.mem_map.mp (List.mem_mergeSort.mp hm)
    exact ⟨level, hs⟩
  have ⟨hlevels, hscope⟩ := levels_append_inj (hlevel query) (hlevel query') hd
  refine ⟨?_, (List.map_perm_map_iff Importance.asStr_injective).mp (perm_of_sorted hlevels)⟩
  constructor
  case productId   => exact ofOption_injective int_injective hproduct
  case projectId   => exact ofOption_injective int_injective hproject
  case docKind     => exact hkind
  case ackRequired => exact ofOption_injective (fun _ _ => HashValue.flag.inj) hack
  case direction   => exact directionLabel_injective hdirection
  case ranking     => exact RankingMode.label_injective hranking
  case explain     => exact HashValue.flag.inj hexplain
  case scope       => exact hscope

theorem timeRange_of_dateRange
    (h : query.toSearchFilter.dateRange = query'.toSearchFilter.dateRange) :
    query.timeRange = query'.timeRange := by
  rcases hr : query.timeRange with ⟨minTs, maxTs⟩
  rcases hr' : query'.timeRange with ⟨minTs', maxTs'⟩
  cases minTs <;> cases maxTs <;> cases minTs' <;> cases maxTs' <;>
    simp [SearchQuery.toSearchFilter, hr, hr', TimeRange.isEmpty] at h ⊢ <;> exact h

-- What two queries with one filter have in common, beyond what they have in common by their scopes.
theorem fields_of_hashFilter (hd : query.direction = query'.direction)
    (h : hashFilter query.toSearchFilter = hashFilter query'.toSearchFilter) :
    query.agentName = query'.agentName ∧ query.threadId = query'.threadId ∧
      query.timeRange = query'.timeRange := by
  have ⟨hsender, hagent, hthread, hrange⟩ := hashFilter_inj h
  refine ⟨?_, hthread, timeRange_of_dateRange hrange⟩
  simp only [SearchQuery.toSearchFilter, hd] at hsender hagent
  by_cases ho : query'.direction = some .outbox
  case pos => simpa only [if_pos ho] using hsender
  case neg => simpa only [if_neg ho] using hagent

-- The digests of a first page and of a later one have different lengths.
theorem discriminators_of_key
    (h : buildSearchCacheKey options toLowercase sqliteKey configured query cacheEpoch =
      buildSearchCacheKey options' toLowercase sqliteKey configured query' cacheEpoch) :
    query.cursor = query'.cursor ∧ cacheScopeDiscriminator query = cacheScopeDiscriminator query' ∧
      cacheAuthorizationDiscriminator options = cacheAuthorizationDiscriminator options' ∧
      options.searchEngine.getD configured = options'.searchEngine.getD configured := by
  have ho := congrArg QueryCacheKey.offset h
  unfold buildSearchCacheKey QueryCacheKey.new at ho
  cases hc : query.cursor <;> cases hc' : query'.cursor <;>
    simp only [hc, hc', Option.elim_none, Option.elim_some, HashValue.digest.injEq,
      HashValue.text.injEq, List.cons.injEq, reduceCtorEq, and_false, and_true] at ho
  case none.none =>
    exact ⟨rfl, ho.left, ho.right.left, cacheEngineDiscriminator_injective ho.right.right⟩
  case some.some =>
    have ⟨hcursor, hscope, hauthorization, hengine⟩ := ho
    exact ⟨congrArg some hcursor, hscope, hauthorization,
      cacheEngineDiscriminator_injective hengine⟩

-- Of the text, the key keeps what is left of it in lower case.
theorem key_text {text : Str} (h : toLowercase (trim query.text) = toLowercase (trim text)) :
    buildSearchCacheKey options toLowercase sqliteKey configured query cacheEpoch =
      buildSearchCacheKey options toLowercase sqliteKey configured { query with
        text } cacheEpoch := by
  unfold buildSearchCacheKey QueryCacheKey.new
  dsimp only
  rw [h]
  rfl

theorem sqlRowCount_finishSearch (hc : query.cursor = none) (engine : SearchEngine)
    (rawResults : List SearchResult) (preserve : Bool) (rerankFacets : List Str)
    (assistance : Option QueryAssistance) :
    (finishSearch query env options engine rawResults preserve rerankFacets
      assistance).sqlRowCount =
      min query.effectiveLimit
        (canonicalizeMessageResults query env rawResults preserve).length := by
  have hw (results : List SearchResult) :
      applyCursorWindow query results = results.mergeSort (cursorOrder query.ranking) := by
    rw [applyCursorWindow, hc]
    rfl
  change ((applyCursorWindow query _).take _).length = _
  rw [List.length_take, hw, List.length_mergeSort]

end Key

section Sample

def booleanQuery (text : String) (limit : Option Nat) : SearchQuery where
  text        := text.toList
  docKind     := .message
  projectId   := none
  productId   := none
  importance  := []
  direction   := none
  agentName   := none
  threadId    := none
  ackRequired := none
  timeRange   := ⟨none, none⟩
  ranking     := .relevance
  limit       := limit
  cursor      := none
  explain     := false
  scope       := .unrestricted
  redaction   := none

def lexicalSearch (trackTelemetry : Bool) : SearchOptions where
  scopeCtx        := none
  redactionPolicy := none
  trackTelemetry  := trackTelemetry
  searchEngine    := some .lexical

-- The engine reads `OR` as an operator, and `or` as a word.
def operatorIndex : Env where
  db                    := .empty
  recipientsJson        := fun _ => none
  parseRecipients       := fun _ => none
  normalizeDatetimeHint := fun _ _ => none
  like                  := fun _ _ => false
  index                 := fun query =>
    if query.text = "alpha OR beta".toList then [.ofRow .message 7 (some 1) "alpha".toList []]
      else []
  backfill              := none
  retrieve              := fun _ _ _ => none
  engine                := .lexical

end Sample

variable {query query' : SearchQuery} {options options' : SearchOptions} {toLowercase : Str → Str}
  {sqliteKey : Str} {cacheEpoch : Nat} {env : Env}

theorem executeSearch_eq_of_key
    (h : buildSearchCacheKey options toLowercase sqliteKey env.engine query cacheEpoch =
      buildSearchCacheKey options' toLowercase sqliteKey env.engine query' cacheEpoch)
    (ha : AgreeBeyondKey toLowercase query query' options options') :
    executeSearch query env options = executeSearch query' env options' := by
  have ⟨hcursor, hscope, hauthorization, hengine⟩ := discriminators_of_key h
  have ⟨hs, hperm⟩ := of_cacheScopeDiscriminator hscope
  have htext := ha.text (congrArg QueryCacheKey.queryNormalized h)
  have ⟨hagent, hthread, hrange⟩ :=
    fields_of_hashFilter hs.direction (congrArg QueryCacheKey.filterHash h)
  have ⟨hagrees, hredaction⟩ := agrees_of_cacheAuthorizationDiscriminator hauthorization
  have hq : query' = { query with
      limit := query'.limit, scope := query'.scope, redaction := query'.redaction } := by
    cases query'
    simp only [SearchQuery.mk.injEq, and_true, true_and]
    exact ⟨htext.symm, hs.docKind.symm, hs.projectId.symm, hs.productId.symm,
      (ha.importance hperm).symm, hs.direction.symm, hagent.symm, hthread.symm, hs.ackRequired.symm,
      hrange.symm, hs.ranking.symm, hcursor.symm, hs.explain.symm⟩
  rw [executeSearch_options hagrees ha.policies hredaction hengine ha.explicit, hq]
  exact executeSearch_congr (congrArg QueryCacheKey.limit h) hs.scope

theorem executeSearch_eq_of_key_defaultLimit :
    executeSearch (booleanQuery "alpha OR beta" none) operatorIndex (lexicalSearch true) =
      executeSearch (booleanQuery "alpha OR beta" (some 50)) operatorIndex
        (lexicalSearch false) := by
  have hp : (lexicalSearch true).effectiveScope.OnePolicy := fun sp hm => absurd hm List.not_mem_nil
  exact @executeSearch_eq_of_key _ _ _ _ toAsciiLowercase [] 0 _ rfl
    ⟨fun _ => rfl, fun _ => rfl, hp, fun _ => Iff.rfl⟩

theorem not_keySound : ¬KeySound toAsciiLowercase := by
  intro h
  have he :=
    h operatorIndex [] 0 (booleanQuery "alpha OR beta" none) (booleanQuery "alpha or beta" none)
    (lexicalSearch false) (lexicalSearch false) (key_text (by decide))
  have hc := congrArg ScopedSearchResponse.sqlRowCount (Except.ok.inj he)
  rw [sqlRowCount_finishSearch rfl, sqlRowCount_finishSearch rfl] at hc
  exact absurd hc (by decide)

end Search
