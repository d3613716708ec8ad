import AgentMail.Identity.Theorems.Path
import AgentMail.Pattern.Theorems.Normalize

open Pattern (Str trim trim_eq_self isWhitespace)

namespace Identity

variable {lc : Lowercase} {s t scheme authority host path user : Str}

section Split

variable {c : Char}

theorem forall_ne_of_not_mem (h : c ∉ s) : ∀ d ∈ s, decide (d ≠ c) = true := by
  intro d hd
  refine decide_eq_true fun hc => ?_
  exact h (hc ▸ hd)

theorem beforeFirst_append (h : c ∉ s) : beforeFirst c (s ++ c :: t) = s := by
  rw [beforeFirst, List.takeWhile_append_of_pos (forall_ne_of_not_mem h),
    List.takeWhile_cons_of_neg (by simp), List.append_nil]

theorem beforeFirst_of_not_mem (h : c ∉ s) : beforeFirst c s = s :=
  List.takeWhile_eq_self_iff.mpr (forall_ne_of_not_mem h)

theorem afterFirst_append (h : c ∉ s) : afterFirst c (s ++ c :: t) = t := by
  rw [afterFirst, List.dropWhile_append_of_pos (forall_ne_of_not_mem h),
    List.dropWhile_cons_of_neg (by simp)]
  rfl

theorem afterLast_append (h : c ∉ t) : afterLast c (s ++ c :: t) = t := by
  rw [afterLast, List.splitOn_append_cons_self, List.splitOn_eq_singleton h]
  simp

theorem afterLast_of_not_mem (h : c ∉ s) : afterLast c s = s := by
  rw [afterLast, List.splitOn_eq_singleton h]
  rfl

end Split

theorem IsPart.whitespace (h : IsPart s) : ∀ c ∈ s, ¬isWhitespace c :=
  fun c hc => (h.plain c hc).right.right.right.right

theorem IsPart.colon (h : IsPart s) : ':' ∉ s :=
  fun hc => (h.plain _ hc).right.right.left rfl

theorem IsPart.at (h : IsPart s) : '@' ∉ s :=
  fun hc => (h.plain _ hc).right.right.right.left rfl

theorem toLowercase_part (h : IsPart s) : lc.toLowercase s = s.map Char.toLower :=
  lc.ascii s h.ascii

theorem find_eq_none {pattern : Str} (h : ¬pattern <:+: s) : Search.find pattern s = none := by
  cases hf : Search.find pattern s
  case none => rfl
  case some i =>
    have ⟨_, hp, _⟩ := Search.find_eq_some_iff.mp hf
    exact (h (hp.isInfix.trans (List.drop_suffix i s).isInfix)).elim

theorem find_scheme (hs : ':' ∉ scheme) :
    Search.find "://".toList (scheme ++ "://".toList ++ t) = some scheme.length := by
  refine Search.find_append fun j hj hp => ?_
  rw [List.append_assoc, List.drop_append_of_le_length (Nat.le_of_lt hj),
    List.drop_eq_getElem_cons hj] at hp
  have hc : ':' = scheme[j] := (List.cons_prefix_cons.mp hp).left
  exact hs (hc ▸ List.getElem_mem hj)

theorem parseRemoteUrl_scheme (hw : ∀ c ∈ scheme ++ authority ++ path, ¬isWhitespace c)
    (hs : ':' ∉ scheme) (ha : '/' ∉ authority) (hh : IsPart host)
    (hhost : beforeFirst ':' (afterLast '@' authority) = host) :
    parseRemoteUrl lc (scheme ++ "://".toList ++ (authority ++ '/' :: path)) =
      some (host.map Char.toLower, path) := by
  have hw : ∀ c ∈ scheme ++ "://".toList ++ (authority ++ '/' :: path), ¬isWhitespace c := by
    simp only [List.forall_mem_append, List.forall_mem_cons] at hw ⊢
    exact ⟨⟨hw.left.left, by simp [isWhitespace]⟩, hw.left.right, by decide, hw.right⟩
  have hne : scheme ++ "://".toList ++ (authority ++ '/' :: path) ≠ [] := by simp
  have hdrop : (scheme ++ "://".toList ++ (authority ++ '/' :: path)).drop (scheme.length + 3) =
      authority ++ '/' :: path := by
    exact List.drop_left' (by simp)
  have hlower : host.map Char.toLower ≠ [] := mt List.map_eq_nil_iff.mp hh.nonempty
  simp only [parseRemoteUrl, trim_eq_self hw, if_neg hne, find_scheme hs, hdrop,
    beforeFirst_append ha, hhost, toLowercase_part hh, if_neg hlower, afterFirst_append ha]

theorem parseRemoteUrl_scp (hw : ∀ c ∈ path, ¬isWhitespace c) (hu : IsPart user) (hh : IsPart host)
    (hp : ':' ∉ path ∧ '@' ∉ path ∧ path.head? ≠ some '/') :
    parseRemoteUrl lc (user ++ '@' :: (host ++ ':' :: path)) =
      some (host.map Char.toLower, path) := by
  have hw : ∀ c ∈ user ++ '@' :: (host ++ ':' :: path), ¬isWhitespace c := by
    simp only [List.forall_mem_append, List.forall_mem_cons]
    exact ⟨hu.whitespace, by decide, hh.whitespace, by decide, hw⟩
  have hne : user ++ '@' :: (host ++ ':' :: path) ≠ [] := by simp
  have hpath : ¬"://".toList <:+: ':' :: path := by
    intro hi
    cases List.infix_cons_iff.mp hi
    case inl h =>
      obtain ⟨t, ht⟩ := (List.cons_prefix_cons.mp h).right
      exact hp.right.right (by rw [← ht]; rfl)
    case inr h => exact hp.left (h.subset List.mem_cons_self)
  have hfind : Search.find "://".toList (user ++ '@' :: (host ++ ':' :: path)) = none := by
    have hat : ':' ∉ user ++ '@' :: host := by simp [hu.colon, hh.colon]
    rw [← List.cons_append, ← List.append_assoc]
    exact find_eq_none (not_infix_append hat hpath)
  have hmem : '@' ∈ user ++ '@' :: (host ++ ':' :: path) ∧
      ':' ∈ user ++ '@' :: (host ++ ':' :: path) := by simp
  have hat : '@' ∉ host ++ ':' :: path := by simp [hh.at, hp.right.left]
  have hsplit : ((user ++ '@' :: (host ++ ':' :: path)).splitOn '@')[1]? =
      some (host ++ ':' :: path) := by
    rw [List.splitOn_append_cons_self, List.splitOn_eq_singleton hu.at,
      List.splitOn_eq_singleton hat]
    rfl
  simp only [parseRemoteUrl, trim_eq_self hw, if_neg hne, hfind, if_pos hmem, hsplit,
    Option.map_some, splitHost, beforeFirst_append hh.colon, afterFirst_append hh.colon,
    toLowercase_part hh]

namespace Remote

variable {r r' : Remote} {suffix : String}

abbrev IsSuffix (suffix : String) : Prop :=
  suffix = "" ∨ suffix = ".git" ∨ suffix = ".git/"

theorem segments_path (h : IsSuffix suffix) :
    normalizedRemotePathSegments (r.path suffix) = [r.owner.val, r.repo.val] := by
  have ho := r.owner.property
  have hr := r.repo.property
  rcases h with rfl | rfl | rfl
  case inl =>
    have h := normalizedRemotePathSegments_path ho r.not_home hr.isLast (.inl rfl)
    rw [stripGit_of_not_suffix r.no_suffix] at h
    simpa [path] using h
  case inr.inl =>
    have h := normalizedRemotePathSegments_path ho r.not_home hr.isLast_git (.inl rfl)
    rwa [List.append_nil, stripGit_append hr.nonempty] at h
  case inr.inr =>
    have h := normalizedRemotePathSegments_path ho r.not_home hr.isLast_git (.inr rfl)
    rw [stripGit_append hr.nonempty] at h
    simpa [path] using h

theorem whitespace_path (h : IsSuffix suffix) : ∀ c ∈ r.path suffix, ¬isWhitespace c := by
  have hs : ∀ c ∈ suffix.toList, ¬isWhitespace c := by
    rcases h with rfl | rfl | rfl <;> simp [isWhitespace]
  simp only [path, List.forall_mem_append, List.forall_mem_cons]
  exact ⟨r.owner.property.whitespace, by decide, r.repo.property.whitespace, hs⟩

theorem normalizeRemoteLastTwo_of_parse {url : Str} (hs : IsSuffix suffix)
    (h : parseRemoteUrl lc url = some (r.host.val.map Char.toLower, r.path suffix)) :
    normalizeRemoteLastTwo lc url = some r.identity := by
  rw [normalizeRemoteLastTwo, h, Option.bind_eq_bind, Option.bind_some]
  simp only [segments_path hs]
  rfl

theorem normalizeRemoteLastTwo_webUrl (lc : Lowercase) {scheme : String} (hs : IsSuffix suffix)
    (hscheme : scheme = "https" ∨ scheme = "ssh") (hw : ∀ c ∈ authority, ¬isWhitespace c)
    (ha : '/' ∉ authority) (hhost : beforeFirst ':' (afterLast '@' authority) = r.host.val) :
    normalizeRemoteLastTwo lc (webUrl scheme authority (r.path suffix)) = some r.identity := by
  have hc : ':' ∉ scheme.toList := by rcases hscheme with rfl | rfl <;> simp
  refine normalizeRemoteLastTwo_of_parse hs (parseRemoteUrl_scheme ?_ hc ha r.host.property hhost)
  simp only [List.forall_mem_append]
  refine ⟨⟨?_, hw⟩, whitespace_path hs⟩
  rcases hscheme with rfl | rfl <;> simp [isWhitespace]

-- One case for each form: what the user, the port and the suffix are taken away from.
theorem normalizeRemoteLastTwo_url (lc : Lowercase) (r : Remote) (form : RemoteForm) :
    normalizeRemoteLastTwo lc (r.url form) = some r.identity := by
  have hh := r.host.property
  have hhost : beforeFirst ':' (afterLast '@' r.host.val) = r.host.val := by
    rw [afterLast_of_not_mem hh.at, beforeFirst_of_not_mem hh.colon]
  have huser (user : Part) : beforeFirst ':' (afterLast '@' (user.val ++ '@' :: r.host.val)) =
      r.host.val := by
    rw [afterLast_append hh.at, beforeFirst_of_not_mem hh.colon]
  have hw (user : Part) : ∀ c ∈ user.val ++ '@' :: r.host.val, ¬isWhitespace c := by
    simp only [List.forall_mem_append, List.forall_mem_cons]
    exact ⟨user.property.whitespace, by decide, hh.whitespace⟩
  have ha (user : Part) : '/' ∉ user.val ++ '@' :: r.host.val := by
    simp [user.property.slash, hh.slash]
  cases form
  case https    =>
    exact normalizeRemoteLastTwo_webUrl lc (.inl rfl) (.inl rfl) hh.whitespace hh.slash hhost
  case httpsGit =>
    exact normalizeRemoteLastTwo_webUrl lc (.inr (.inl rfl)) (.inl rfl) hh.whitespace hh.slash hhost
  case httpsUser user =>
    exact normalizeRemoteLastTwo_webUrl lc (.inr (.inr rfl)) (.inl rfl) (hw user) (ha user)
      (huser user)
  case ssh user =>
    exact normalizeRemoteLastTwo_webUrl lc (.inr (.inl rfl)) (.inr rfl) (hw user) (ha user)
      (huser user)
  case sshPort user port =>
    refine normalizeRemoteLastTwo_webUrl lc (.inl rfl) (.inr rfl) ?_ ?_ ?_
    case refine_1 =>
      simp only [List.forall_mem_append, List.forall_mem_cons]
      exact ⟨user.property.whitespace, by decide, hh.whitespace, by decide,
        port.property.whitespace⟩
    case refine_2 => simp [user.property.slash, hh.slash, port.property.slash]
    case refine_3 =>
      have hat : '@' ∉ r.host.val ++ ':' :: port.val := by simp [hh.at, port.property.at]
      rw [afterLast_append hat, beforeFirst_append hh.colon]
  case scp user =>
    have hs : IsSuffix ".git" := .inr (.inl rfl)
    refine normalizeRemoteLastTwo_of_parse hs
      (parseRemoteUrl_scp (whitespace_path hs) user.property hh ?_)
    have ho := r.owner.property
    have hr := r.repo.property
    refine ⟨by simp [path, ho.colon, hr.colon], by simp [path, ho.at, hr.at], ?_⟩
    have ⟨c, rest, hc⟩ := List.exists_cons_of_ne_nil ho.nonempty
    rw [path, hc, List.cons_append, List.head?_cons]
    intro hslash
    exact (ho.plain c (hc ▸ List.mem_cons_self)).left (Option.some.inj hslash)

theorem splitOn_identity (r : Remote) :
    r.identity.splitOn '/' = [r.host.val.map Char.toLower, r.owner.val, r.repo.val] := by
  refine List.splitOn_intercalate '/' ?_ (List.cons_ne_nil _ _)
  have hlower : '/' ∉ r.host.val.map Char.toLower := by
    intro h
    have ⟨c, hc, hs⟩ := List.mem_map.mp h
    exact r.host.property.slash (Pattern.toLower_eq_slash.mp hs ▸ hc)
  simp only [List.forall_mem_cons, List.not_mem_nil, false_imp_iff, implies_true, and_true]
  exact ⟨hlower, r.owner.property.slash, r.repo.property.slash⟩

theorem identity_eq_iff :
    r.identity = r'.identity ↔
      r.host.val.map Char.toLower = r'.host.val.map Char.toLower ∧ r.owner.val = r'.owner.val ∧
      r.repo.val = r'.repo.val := by
  constructor
  case mp =>
    intro h
    have hs := congrArg (List.splitOn '/') h
    rw [splitOn_identity, splitOn_identity] at hs
    simpa using hs
  case mpr =>
    intro ⟨hh, ho, hr⟩
    rw [identity, identity, hh, ho, hr]

theorem normalizeRemoteLastTwo_eq_iff (lc : Lowercase) (r r' : Remote) (form form' : RemoteForm) :
    normalizeRemoteLastTwo lc (r.url form) = some r.identity ∧
    (normalizeRemoteLastTwo lc (r.url form) = normalizeRemoteLastTwo lc (r'.url form') ↔
      r.host.val.map Char.toLower = r'.host.val.map Char.toLower ∧ r.owner.val = r'.owner.val ∧
      r.repo.val = r'.repo.val) := by
  rw [normalizeRemoteLastTwo_url, normalizeRemoteLastTwo_url]
  exact ⟨rfl, Option.some_inj.trans identity_eq_iff⟩

end Remote

end Identity
