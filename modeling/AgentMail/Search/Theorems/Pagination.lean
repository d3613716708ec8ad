import AgentMail.Search.Pagination
import AgentMail.Search.Theorems.Cursor

open Pattern (Str)
open Schema

namespace Search

section

variable {ctx : ScopeContext} {redaction : RedactionPolicy} {query : SearchQuery}
  {options : SearchOptions} {results : List SearchResult} {assistance : Option QueryAssistance}
    {explain : Option QueryExplain}

theorem scopeResult_operator (redaction : RedactionPolicy) (result : SearchResult)
    (h : ctx.viewer = none) :
    ∃ decision, scopeResult ctx redaction result = some ⟨result, decision, none⟩ := by
  have hv : (evaluateScope result ctx).verdict = .allow := by
    unfold evaluateScope
    split
    case isTrue  => rfl
    case isFalse => rw [h]
  exact ⟨evaluateScope result ctx, by simp only [scopeResult, hv]⟩

-- Without a viewer, every result is shown as it is.
theorem applyScope_operator (h : ctx.viewer = none) :
    (applyScope ctx redaction results).fst.map (·.result) = results := by
  unfold applyScope
  induction results
  case nil                 => rfl
  case cons result rest hi =>
    have ⟨decision, hd⟩ := scopeResult_operator redaction result h
    rw [List.filterMap_cons_some hd, List.map_cons]
    exact congrArg (result :: ·) hi

theorem finishScopedResponse_page (h : IsOperator options) :
    let response :=
      finishScopedResponse query options (results.take query.effectiveLimit) assistance explain
    (response.results.map (·.result), response.nextCursor) =
      Pages.cut query.effectiveLimit (pageToken query.ranking) results :=
  Prod.ext (applyScope_operator h) rfl

end

section

variable {a b c : SearchResult} {ranking : RankingMode} {results : List SearchResult}

theorem Before.irrefl : ¬Before ranking a a := by
  unfold Before
  cases rank ranking a <;> simp

theorem Before.asymm (h : Before ranking a b) : ¬Before ranking b a := by
  unfold Before at *
  cases ha : rank ranking a <;> cases hb : rank ranking b <;> simp [ha, hb] at * <;> omega

instance : Std.Irrefl (Before ranking) :=
  ⟨fun _ => Before.irrefl⟩

instance : Std.Antisymm (Before ranking) :=
  ⟨fun _ _ h h' => absurd h' h.asymm⟩

theorem cursorOrder_trans (h : cursorOrder ranking a b) (h' : cursorOrder ranking b c) :
    cursorOrder ranking a c := by
  cases ranking <;> simp [cursorOrder] at * <;> omega

theorem cursorOrder_total : cursorOrder ranking a b || cursorOrder ranking b a := by
  cases ranking <;> simp [cursorOrder] <;> omega

theorem pairwise_sorted (results : List SearchResult) :
    (results.mergeSort (cursorOrder ranking)).Pairwise fun a b => cursorOrder ranking a b :=
  @List.pairwise_mergeSort _ (cursorOrder ranking) (fun _ _ _ => cursorOrder_trans)
    (fun _ _ => cursorOrder_total)
    results

theorem totalKey_ofInt_le {m n : Int} (hm : IsExactTime m) (hn : IsExactTime n)
    (h : (Float64.ofInt m).totalKey ≤ (Float64.ofInt n).totalKey) : m ≤ n := by
  by_contra hc
  have := Float64.totalKey_ofInt_lt (Int.lt_of_not_ge hc) hn.left hm.right
  omega

theorem IsHit.isFinite (h : IsHit a) (ranking : RankingMode) :
    (cursorSortScore a ranking).isFinite := by
  have ⟨score, hs, hf⟩ := h.score
  have ⟨createdTs, ht, he⟩ := h.time
  cases ranking
  case relevance => rwa [cursorSortScore, hs]
  case recency   =>
    rw [cursorSortScore, ht, Option.elim_some, Float64.isFinite_neg]
    exact Float64.isFinite_ofInt he.left he.right

-- The scores that the code sorts by have the order of the ranks.
theorem IsHit.before (ha : IsHit a) (hb : IsHit b) (h : cursorOrder ranking a b)
    (hn : a.id ≠ b.id) : Before ranking a b := by
  have ⟨score, hs, _⟩ := ha.score
  have ⟨score', hs', _⟩ := hb.score
  have ⟨createdTs, ht, he⟩ := ha.time
  have ⟨createdTs', ht', he'⟩ := hb.time
  cases ranking
  case relevance =>
    simp only [cursorOrder, cursorSortScore, hs, hs', Option.getD_some, Bool.or_eq_true,
      Bool.and_eq_true, decide_eq_true_eq] at h
    simp only [Before, rank, hs, hs', Option.map_some, Option.some_lt_some, Option.some.injEq]
    omega
  case recency =>
    have hle := totalKey_ofInt_le he he'
    have hle' := totalKey_ofInt_le he' he
    simp only [cursorOrder, cursorSortScore, ht, ht', Option.elim_some, Float64.totalKey_neg,
      Bool.or_eq_true, Bool.and_eq_true, decide_eq_true_eq] at h
    simp only [Before, rank, ht, ht', Option.some_lt_some, Option.some.injEq]
    by_cases heq : createdTs = createdTs'
    case pos => subst heq; omega
    case neg => omega

theorem pairwise_before (hr : ∀ result ∈ results, IsHit result) (hn : (results.map (·.id)).Nodup) :
    (results.mergeSort (cursorOrder ranking)).Pairwise (Before ranking) := by
  have hp : (results.mergeSort (cursorOrder ranking)).Pairwise (·.id ≠ ·.id) :=
    List.pairwise_map.mp ((List.mergeSort_perm results _).map _ |>.nodup_iff.mpr hn)
  refine ((pairwise_sorted results).and hp).imp_of_mem fun ha hb h => ?_
  exact (hr _ (List.mem_mergeSort.mp ha)).before (hr _ (List.mem_mergeSort.mp hb)) h.left h.right

end

section

variable {query : SearchQuery} {env : Env} {ids seen : List Int} {preserve : Bool}
  {hits : List SearchResult} {hit result : SearchResult}

theorem dedupById_eq (hn : (hits.map (·.id)).Nodup) (hs : ∀ hit ∈ hits, hit.id ∉ seen) :
    dedupById seen hits = hits := by
  induction hits generalizing seen
  case nil              => rfl
  case cons hit hits hi =>
    have ⟨hh, hn⟩ := List.nodup_cons.mp hn
    have ⟨hs, hs'⟩ := List.forall_mem_cons.mp hs
    rw [dedupById, if_neg hs, hi hn]
    intro hit' hm hc
    obtain hc | hc := List.mem_cons.mp hc
    · exact hh (List.mem_map.mpr ⟨hit', hm, hc⟩)
    · exact hs' hit' hm hc

-- What the database says of a hit does not depend on the other hits.
theorem canonicalizeResult_congr (h : hit.id ∈ ids) :
    canonicalizeResult query env ids preserve hit =
      canonicalizeResult query env [hit.id] preserve hit := by
  have hd : getMessagesDetailsByIds env ids query.projectId hit.id =
      getMessagesDetailsByIds env [hit.id] query.projectId hit.id := by
    simp [getMessagesDetailsByIds, h]
  have hr : listMessageRecipientNamesByMessage env.db ids hit.id =
      listMessageRecipientNamesByMessage env.db [hit.id] hit.id := by
    simp [listMessageRecipientNamesByMessage, h]
  simp only [canonicalizeResult, hd, hr]

theorem canonicalizeMessageResults_singleton (hk : query.docKind = .message) :
    canonicalizeMessageResults query env [hit] preserve =
      (canonicalizeResult query env [hit.id] preserve hit).toList := by
  simp only [canonicalizeMessageResults, hk, dedupById, List.not_mem_nil, if_false, ne_eq,
    not_true, false_or, List.cons_ne_nil, List.map_cons, List.map_nil]
  exact (List.filterMap_eq_flatMap_toList _ _).trans (List.flatMap_singleton _ _)

theorem canonicalizeMessageResults_eq (hk : query.docKind = .message)
    (hn : (hits.map (·.id)).Nodup) : canonicalizeMessageResults query env hits preserve =
      hits.flatMap fun hit => canonicalizeMessageResults query env [hit] preserve := by
  simp only [canonicalizeMessageResults_singleton hk]
  unfold canonicalizeMessageResults
  by_cases he : hits = []
  case pos => simp [he]
  case neg =>
    rw [if_neg (by simp [hk, he]), dedupById_eq hn fun _ _ => List.not_mem_nil]
    simp only
    rw [List.filterMap_eq_flatMap_toList]
    exact List.flatMap_congr fun hit hm => by rw [canonicalizeResult_congr (List.mem_map_of_mem hm)]

theorem canonicalizeResult_some (h : canonicalizeResult query env ids preserve hit = some result) :
    result = hit ∨ ∃ detail : ThreadMessageRow, detail.m ∈ env.db.messages.rows ∧
      result = hit.fill env detail := by
  unfold canonicalizeResult at h
  simp only at h
  split at h
  case h_1 =>
    have ⟨_, he⟩ := Option.ite_none_right_eq_some.mp h
    exact .inl (Option.some.inj he).symm
  case h_2 detail hd =>
    have ⟨_, he⟩ := Option.ite_none_right_eq_some.mp h
    have ⟨row, hf, hr⟩ := Option.map_eq_some_iff.mp hd
    have ⟨m, hm, hj⟩ := List.mem_filterMap.mp (List.mem_of_find?_eq_some hf)
    have ⟨a, _, hj⟩ := Option.map_eq_some_iff.mp hj
    subst hj hr
    exact .inr ⟨_, hm, (Option.some.inj he).symm⟩

-- A hit that is kept has the same id, and it is still a hit.
theorem IsHit.canonical (h : IsHit hit) (ht : ∀ m ∈ env.db.messages.rows, IsExactTime m.createdTs)
    (hc : canonicalizeResult query env ids preserve hit = some result) : result.id = hit.id ∧
    IsHit result := by
  obtain rfl | ⟨detail, hm, rfl⟩ := canonicalizeResult_some hc
  · exact ⟨rfl, h⟩
  · exact ⟨rfl, { le := h.le, lt := h.lt, score := h.score, time := ⟨_, rfl, ht _ hm⟩ }⟩

end

section

variable {query : SearchQuery} {env : Env} {options : SearchOptions} {hits : List SearchResult}
  {t : Option Str}

theorem matchingHits_eq (hk : query.docKind = .message) : matchingHits query env options hits =
    hits.filterMap fun hit =>
      canonicalizeResult query env [hit.id] (options.searchEngine = some .lexical) hit := by
  rw [List.filterMap_eq_flatMap_toList]
  exact List.flatMap_congr fun hit _ => canonicalizeMessageResults_singleton hk

theorem map_id_matchingHits (hk : query.docKind = .message) :
    ((matchingHits query env options hits).map (·.id)).Sublist (hits.map (·.id)) := by
  rw [matchingHits_eq hk]
  induction hits
  case nil              => exact .slnil
  case cons hit hits hi =>
    rw [List.filterMap_cons]
    split
    case h_1           => exact hi.cons _
    case h_2 result hc =>
      have hid : result.id = hit.id := by
        obtain rfl | ⟨_, _, rfl⟩ := canonicalizeResult_some hc <;> rfl
      rw [List.map_cons, List.map_cons, hid]
      exact hi.cons_cons _

theorem pairwise_matchingHits (hk : query.docKind = .message) (hx : IsIndexed env query)
    (hs : hits.Sublist (env.index query.engineQuery)) (ranking : RankingMode) :
    ((matchingHits query env options hits).mergeSort (cursorOrder ranking)).Pairwise
      (Before ranking) := by
  refine pairwise_before (fun result hr => ?_)
    ((map_id_matchingHits hk).nodup ((hs.map _).nodup hx.nodup))
  rw [matchingHits_eq hk] at hr
  have ⟨hit, hm, hc⟩ := List.mem_filterMap.mp hr
  exact ((hx.hits hit (hs.subset hm)).canonical hx.times hc).right

theorem lexicalResults_eq (hb : env.backfill = none) {explicitLexical : Bool} :
    lexicalResults { query with cursor := t } env explicitLexical =
      (env.index query.engineQuery).take (candidateCount { query with cursor := t }) := by
  simp only [lexicalResults, hb]
  rfl

theorem executeSearch_message (query : SearchQuery) (hk : query.docKind = .message)
    (he : options.searchEngine.getD env.engine = .lexical) : executeSearch query env options =
    .ok (finishSearch query env options .lexical
      (lexicalResults query env (options.searchEngine = some .lexical))
        (options.searchEngine = some .lexical) []
      (queryAssistancePayload env.normalizeDatetimeHint query)) := by
  simp only [executeSearch, hk, he, if_true]

theorem page_message (hk : query.docKind = .message)
    (he : options.searchEngine.getD env.engine = .lexical) (ho : IsOperator options)
    (hx : IsIndexed env query) : page query env options t =
      Pages.cut query.effectiveLimit (pageToken query.ranking)
        (pageWindow query env options t) := by
  have hn : (((env.index query.engineQuery).take (candidateCount { query with cursor := t })).map
      (·.id)).Nodup :=
    ((List.take_sublist _ _).map _).nodup hx.nodup
  have hc : canonicalizeMessageResults { query with cursor := t } env
      (lexicalResults { query with cursor := t } env (options.searchEngine = some .lexical))
      (options.searchEngine = some .lexical) = matchingHits query env options
        ((env.index query.engineQuery).take (candidateCount { query with cursor := t })) := by
    rw [lexicalResults_eq hx.backfill]
    exact canonicalizeMessageResults_eq hk hn
  rw [page, executeSearch_message { query with cursor := t } hk he]
  refine (finishScopedResponse_page ho).trans ?_
  rw [hc]
  rfl

end

section

variable {query : SearchQuery} {env : Env} {options : SearchOptions}
  {front back items : List SearchResult} {a : SearchResult} {t : Str}

-- The page after an item goes on right after that item.
theorem applyCursorWindow_pageToken {results : List SearchResult}
    (hs : results.mergeSort (cursorOrder query.ranking) = front ++ a :: back)
    (hn : (results.map (·.id)).Nodup) (ha : IsHit a) :
    applyCursorWindow { query with cursor := some (pageToken query.ranking a) } results = back := by
  have hd : SearchCursor.decode (pageToken query.ranking a) =
      some ⟨cursorSortScore a query.ranking, a.id⟩ :=
    SearchCursor.decode_encode (ha.isFinite _) ha.le ha.lt
  have hi : (front ++ a :: back).findIdx?
      (isAtCursor query.ranking ⟨cursorSortScore a query.ranking, a.id⟩) =
      some front.length := by
    have hn : ((front ++ a :: back).map (·.id)).Nodup :=
      hs ▸ ((List.mergeSort_perm results _).map _).nodup_iff.mpr hn
    rw [List.map_append, List.map_cons, List.nodup_middle] at hn
    have hf : ∀ r ∈ front, isAtCursor query.ranking ⟨cursorSortScore a query.ranking, a.id⟩ r =
        false := by
      intro r hr
      have hne : r.id ≠ a.id := by
        intro h
        have hm : a.id ∈ front.map (·.id) := List.mem_map.mpr ⟨r, hr, h⟩
        exact (List.nodup_cons.mp hn).left (List.mem_append_left _ hm)
      simp [isAtCursor, hne]
    rw [List.findIdx?_append, List.findIdx?_eq_none_iff.mpr hf, List.findIdx?_cons]
    simp [isAtCursor]
  simp only [applyCursorWindow, Option.bind_some, hd, hs, hi]
  simp

theorem candidateCount_le :
    candidateCount { query with cursor := none } ≤ candidateCount { query with
      cursor := some t } := by
  simp only [candidateCount, fetchLimit, paginationFetchLimit, SearchQuery.effectiveLimit,
    Option.isSome_none, Option.isSome_some, Bool.false_eq_true, if_true, if_false, Option.getD_some]
  have : lexicalCandidateLimit { query with cursor := none } =
    lexicalCandidateLimit { query with cursor := some t } := rfl
  omega

theorem matchingHits_subset {hits hits' : List SearchResult} (h : hits ⊆ hits') :
    matchingHits query env options hits ⊆ matchingHits query env options hits' := by
  intro r hr
  have ⟨hit, hm, hr⟩ := List.mem_flatMap.mp hr
  exact List.mem_flatMap.mpr ⟨hit, h hm, hr⟩

-- The matches among some of the hits and those among the others.
theorem mem_matchingHits_drop (hk : query.docKind = .message) (hx : IsIndexed env query) {n : Nat}
    {r : SearchResult} : r ∈ matchingHits query env options ((env.index query.engineQuery).drop n) ↔
      r ∈ matchingHits query env options (env.index query.engineQuery) ∧
        r ∉ matchingHits query env options ((env.index query.engineQuery).take n) := by
  have ha : matchingHits query env options (env.index query.engineQuery) =
      matchingHits query env options ((env.index query.engineQuery).take n) ++
        matchingHits query env options ((env.index query.engineQuery).drop n) := by
    rw [matchingHits, matchingHits, matchingHits, ← List.flatMap_append, List.take_append_drop]
  have hn : (matchingHits query env options (env.index query.engineQuery)).Nodup :=
    .of_map _ ((map_id_matchingHits hk).nodup hx.nodup)
  rw [ha, List.nodup_append] at hn
  have ⟨_, _, hd⟩ := hn
  rw [ha, List.mem_append]
  exact ⟨fun h => ⟨.inr h, fun h' => hd r h' r h rfl⟩, fun ⟨h, h'⟩ => h.resolve_left h'⟩

theorem matchingHits_drop_eq_nil (hk : query.docKind = .message) (hx : IsIndexed env query)
    {n : Nat} : matchingHits query env options ((env.index query.engineQuery).drop n) = [] ↔
      ∀ r ∈ matchingHits query env options (env.index query.engineQuery),
        r ∈ matchingHits query env options ((env.index query.engineQuery).take n) := by
  simp only [List.eq_nil_iff_forall_not_mem, mem_matchingHits_drop hk hx, not_and, not_not]

theorem effectiveLimit_pos : 0 < query.effectiveLimit := by
  unfold SearchQuery.effectiveLimit
  omega

theorem mem_sortedMatches {count : Nat} {r : SearchResult} :
    r ∈ sortedMatches query env options count ↔
      r ∈ matchingHits query env options ((env.index query.engineQuery).take count) :=
  List.mem_mergeSort

theorem sortedMatches_subset {m n : Nat} (h : m ≤ n) :
    sortedMatches query env options m ⊆ sortedMatches query env options n := by
  intro r hr
  rw [mem_sortedMatches] at *
  exact matchingHits_subset (List.take_sublist_take_left h).subset hr

theorem pairwise_sortedMatches (hk : query.docKind = .message) (hx : IsIndexed env query)
    {count : Nat} : (sortedMatches query env options count).Pairwise (Before query.ranking) :=
  pairwise_matchingHits hk hx (List.take_sublist _ _) query.ranking

theorem pageWindow_pageToken (hk : query.docKind = .message) (hx : IsIndexed env query)
    (h : sortedMatches query env options (candidateCount { query with cursor := some [] }) =
      front ++ a :: back) :
    pageWindow query env options (some (pageToken query.ranking a)) = back := by
  refine applyCursorWindow_pageToken h ((map_id_matchingHits hk).nodup
    (((List.take_sublist _ _).map _).nodup hx.nodup)) ?_
  have ha :
      a ∈ sortedMatches query env options (candidateCount { query with cursor := some [] }) := by
    simp [h]
  have ⟨hit, hm, hc⟩ := List.mem_filterMap.mp (matchingHits_eq hk ▸ mem_sortedMatches.mp ha)
  exact ((hx.hits hit (List.take_subset _ _ hm)).canonical hx.times hc).right

theorem enumeratesMatches_message (hk : query.docKind = .message)
    (he : options.searchEngine.getD env.engine = .lexical) (ho : IsOperator options)
    (hx : IsIndexed env query) :
    EnumeratesMatches query env options ↔ ReachesMatches query env options := by
  have hpage : page query env options = fun t =>
      Pages.cut query.effectiveLimit (pageToken query.ranking) (pageWindow query env options t) :=
    funext fun t => page_message hk he ho hx
  let all := sortedMatches query env options (env.index query.engineQuery).length
  have hall : all.Pairwise (Before query.ranking) := pairwise_sortedMatches hk hx
  have hm (r : SearchResult) : r ∈ all ↔
      r ∈ matchingHits query env options (env.index query.engineQuery) := by
    rw [mem_sortedMatches, List.take_length]
  have hc : (pageWindow query env options none).length = (matchingHits query env options
      ((env.index query.engineQuery).take (candidateCount { query with cursor := none }))).length :=
    List.length_mergeSort _
  have hf (r : SearchResult) : r ∈ pageWindow query env options none ↔
      r ∈ matchingHits query env options
      ((env.index query.engineQuery).take (candidateCount { query with cursor := none })) :=
    List.mem_mergeSort
  have hp (r : SearchResult) : (all.filter (Before query.ranking · r)).length =
      ((matchingHits query env options (env.index query.engineQuery)).filter
        (Before query.ranking · r)).length := by
    have := (List.mergeSort_perm (matchingHits query env options (env.index query.engineQuery))
      (cursorOrder query.ranking)).filter (Before query.ranking · r)
    simpa only [all, sortedMatches, List.take_length] using this.length_eq
  have hsorted : Pages.Enumerates (page query env options) all ↔
      EnumeratesMatches query env options := by
    simp only [EnumeratesMatches, allMatches, hk, ← hm]
    exact Pages.enumerates_iff_sorted hall
  rw [← hsorted, hpage,
    Pages.shows_all_iff effectiveLimit_pos (fun _ _ _ => pageWindow_pageToken hk hx)
    (pairwise_sortedMatches hk hx) (pairwise_sortedMatches hk hx) hall
      (sortedMatches_subset candidateCount_le)
    (fun r hr => ?_), hc]
  · simp only [ReachesMatches, hk, matchingHits_drop_eq_nil hk hx, hm, hf, hp, mem_sortedMatches,
      mem_matchingHits_drop hk hx, and_imp]
  · exact (hm r).mpr (matchingHits_subset (List.take_subset _ _) (mem_sortedMatches.mp hr))

end

section

variable {ρ : Type} {plan : SearchPlan ρ} {rows : List ρ} {key : ρ → Int} {limit : Nat}

-- A plan without rows is not limited.
theorem rows_eq (h : plan.method ≠ .empty → plan.params.getLast? = some (.int limit))
    (h' : plan.method = .empty → plan.params = []) :
    plan.rows rows = (plan.matches rows).take limit := by
  by_cases he : plan.method = .empty
  case pos => simp [SearchPlan.rows, h' he, SearchPlan.matches, he]
  case neg => simp [SearchPlan.rows, h he]

theorem pairwise_matches (h : plan.method ≠ .empty → plan.order = fun a b => decide (key a ≤ key b))
    (hn : (rows.map key).Nodup) : (plan.matches rows).Pairwise (key · < key ·) := by
  unfold SearchPlan.matches
  split
  case isTrue     => exact .nil
  case isFalse he =>
    rw [h he]
    have hs := @List.pairwise_mergeSort _ (fun a b => decide (key a ≤ key b)) (by simp; omega)
      (by simp; omega)
      (rows.filter (holdsAll plan.clauses plan.params))
    have hd : ((rows.filter (holdsAll plan.clauses plan.params)).mergeSort fun a b =>
        decide (key a ≤ key b)).Pairwise
        (key · ≠ key ·) :=
      List.pairwise_map.mp (((List.mergeSort_perm _ _).map _).nodup_iff.mpr
        ((List.filter_sublist.map _).nodup hn))
    refine (hs.and hd).imp fun h => ?_
    have hle := of_decide_eq_true h.left
    have hne := h.right
    omega

end

section

variable {query : SearchQuery} {env : Env} {options : SearchOptions} {t : Option Str}

theorem before_ofRow {kind : DocKind} {i j : Int} {p p' : Option Int}
    {title title' body body' : Str} {ranking : RankingMode} (h : i < j) :
    Before ranking (.ofRow kind i p title body) (.ofRow kind j p' title' body') := by
  cases ranking <;> exact .inr ⟨rfl, h⟩

theorem rows_planAgentSearch {rows : List AgentRow} : (planAgentSearch env.like query).rows rows =
    ((planAgentSearch env.like query).matches rows).take query.effectiveLimit := by
  unfold planAgentSearch
  simp only
  split
  case isTrue  => exact rows_eq (fun h => absurd rfl h) fun _ => rfl
  case isFalse => exact rows_eq (fun _ => List.getLast?_concat) nofun

theorem rows_planProjectSearch {rows : List ProjectRow} :
    (planProjectSearch env.like query).rows rows =
      ((planProjectSearch env.like query).matches rows).take query.effectiveLimit := by
  unfold planProjectSearch
  simp only
  split
  case isTrue  => exact rows_eq (fun h => absurd rfl h) fun _ => rfl
  case isFalse => exact rows_eq (fun _ => List.getLast?_concat) nofun

theorem pairwise_matchingAgents :
    ((matchingAgents query env).map agentResult).Pairwise (Before query.ranking) := by
  have ho : (planAgentSearch env.like query).method ≠ .empty →
      (planAgentSearch env.like query).order = fun a b => decide (a.id ≤ b.id) := by
    unfold planAgentSearch
    simp only
    split
    case isTrue  => exact fun h => absurd rfl h
    case isFalse => exact fun _ => rfl
  exact List.pairwise_map.mpr ((pairwise_matches ho env.db.agents.nodup).imp before_ofRow)

theorem pairwise_matchingProjects :
    ((matchingProjects query env).map projectResult).Pairwise (Before query.ranking) := by
  have ho : (planProjectSearch env.like query).method ≠ .empty →
      (planProjectSearch env.like query).order = fun p q => decide (p.id ≤ q.id) := by
    unfold planProjectSearch
    simp only
    split
    case isTrue  => exact fun h => absurd rfl h
    case isFalse => exact fun _ => rfl
  exact List.pairwise_map.mpr ((pairwise_matches ho env.db.projects.nodup).imp before_ofRow)

-- The cursor is not looked at.
theorem page_agent (hk : query.docKind = .agent) (ho : IsOperator options) :
    page query env options t =
      Pages.cut query.effectiveLimit (pageToken query.ranking)
        ((matchingAgents query env).map agentResult) := by
  have he : executeSearch { query with cursor := t } env options =
      .ok (executeAgentSearch { query with cursor := t }
      env options (queryAssistancePayload env.normalizeDatetimeHint query)) := by
    simp only [executeSearch, hk]
    rfl
  rw [page, he]
  simp only [executeAgentSearch, rows_planAgentSearch, List.map_take]
  exact finishScopedResponse_page ho

theorem page_project (hk : query.docKind = .project) (ho : IsOperator options) :
    page query env options t =
      Pages.cut query.effectiveLimit (pageToken query.ranking)
        ((matchingProjects query env).map projectResult) := by
  have he : executeSearch { query with cursor := t } env options =
      .ok (executeProjectSearch { query with cursor := t }
      env options (queryAssistancePayload env.normalizeDatetimeHint query)) := by
    simp only [executeSearch, hk]
    rfl
  rw [page, he]
  simp only [executeProjectSearch, rows_planProjectSearch, List.map_take]
  exact finishScopedResponse_page ho

theorem enumeratesMatches_single {results : List SearchResult}
    (hr : allMatches query env options = results) (hp : results.Pairwise (Before query.ranking))
    (hpage : ∀ t, page query env options t =
      Pages.cut query.effectiveLimit (pageToken query.ranking) results) :
    EnumeratesMatches query env options ↔ results.length < query.effectiveLimit := by
  rw [EnumeratesMatches, hr, ← Pages.enumerates_iff_sorted hp, funext hpage]
  exact Pages.enumerates_const_iff effectiveLimit_pos

end

section

-- A term that the text contains.
def likeContains (pattern text : Str) : Bool :=
  text.tails.any (pattern.tail.dropLast.isPrefixOf ·)

def hitWithScore (id score : Int) : SearchResult :=
  { SearchResult.ofRow .message id (some 1) "plan".toList [] with
    score     := some (.ofInt score)
    createdTs := some 0 }

def builder : AgentRow where
  id              := 1
  projectId       := 1
  name            := "builder".toList
  taskDescription := []
  contactPolicy   := "auto".toList

def twoHits : Env where
  db                    := { Database.empty with agents := ⟨[builder], List.nodup_singleton _⟩ }
  recipientsJson        := fun _ => none
  parseRecipients       := fun _ => none
  normalizeDatetimeHint := fun _ _ => none
  like                  := likeContains
  index                 := fun _ => [hitWithScore 7 2, hitWithScore 3 1]
  backfill              := none
  retrieve              := fun _ _ _ => none
  engine                := .lexical

def oneByOne (docKind : DocKind) (text : String) : SearchQuery where
  text        := text.toList
  docKind     := docKind
  projectId   := none
  productId   := none
  importance  := []
  direction   := none
  agentName   := none
  threadId    := none
  ackRequired := none
  timeRange   := ⟨none, none⟩
  ranking     := .relevance
  limit       := some 1
  cursor      := none
  explain     := false
  scope       := .unrestricted
  redaction   := none

def lexicalOptions : SearchOptions where
  scopeCtx        := none
  redactionPolicy := none
  trackTelemetry  := false
  searchEngine    := some .lexical

theorem isHit_hitWithScore {id score : Int} (h : 0 ≤ id) (h' : id < 10) (hs : 0 ≤ score)
    (hs' : score < 10) : IsHit (hitWithScore id score) where
  le    := by change -2 ^ 63 ≤ id; omega
  lt    := by change id < 2 ^ 63; omega
  score := ⟨_, rfl, Float64.isFinite_ofInt (by omega) (by omega)⟩
  time  := ⟨0, rfl, by decide, by decide⟩

theorem isIndexed_twoHits : IsIndexed twoHits (oneByOne .message "plan") where
  nodup    := by decide
  hits     := by
    intro hit hm
    obtain rfl | rfl : hit = hitWithScore 7 2 ∨ hit = hitWithScore 3 1 := by
      simpa [twoHits] using hm
    all_goals exact isHit_hitWithScore (by decide) (by decide) (by decide) (by decide)
  backfill := rfl
  times    := nofun

end

-- The pages of a search enumerate the matches if and only if the limits let the first page and the
-- others reach them.
theorem enumeratesMatches_iff {query : SearchQuery} {env : Env} {options : SearchOptions}
    (hk : query.docKind ≠ .thread)
    (he : query.docKind = .message → options.searchEngine.getD env.engine = .lexical)
    (ho : IsOperator options) (hx : query.docKind = .message → IsIndexed env query) :
    EnumeratesMatches query env options ↔ ReachesMatches query env options := by
  cases hd : query.docKind
  case message => exact enumeratesMatches_message hd (he hd) ho (hx hd)
  case thread  => exact absurd hd hk
  case agent   =>
    rw [enumeratesMatches_single (by simp only [allMatches, hd]) pairwise_matchingAgents fun _ =>
      page_agent hd ho, List.length_map]
    simp only [ReachesMatches, hd]
  case project =>
    rw [enumeratesMatches_single (by simp only [allMatches, hd]) pairwise_matchingProjects fun _ =>
      page_project hd ho, List.length_map]
    simp only [ReachesMatches, hd]

theorem enumeratesMatches_iff_twoHits :
    EnumeratesMatches (oneByOne .message "plan") twoHits lexicalOptions := by
  have hr : ReachesMatches (oneByOne .message "plan") twoHits lexicalOptions := by
    dsimp only [ReachesMatches, oneByOne]
    decide
  have hk : (oneByOne .message "plan").docKind ≠ .thread := nofun
  have ho : IsOperator lexicalOptions := rfl
  exact (enumeratesMatches_iff hk (fun _ => rfl) ho fun _ => isIndexed_twoHits).mpr hr

-- The page with the only agent is followed by the same page again.
theorem not_enumeratesMatches_fullPage :
    ¬EnumeratesMatches (oneByOne .agent "build") twoHits lexicalOptions := by
  have ho : IsOperator lexicalOptions := rfl
  have ha : allMatches (oneByOne .agent "build") twoHits lexicalOptions =
      (matchingAgents (oneByOne .agent "build") twoHits).map agentResult := rfl
  rw [enumeratesMatches_single ha pairwise_matchingAgents fun _ => page_agent rfl ho,
    List.length_map, matchingAgents, SearchPlan.matches, if_neg (by decide), List.length_mergeSort]
  decide

end Search
