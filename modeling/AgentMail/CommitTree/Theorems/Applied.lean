import AgentMail.CommitTree.Theorems.Build
import Mathlib.Data.List.MinMax

open Pattern (Str)

namespace CommitTree

variable {β : Type} {ups : List (List Str × Option β)} {path p : List Str} {base result : Entry β}

theorem kindAt_append {e : Entry β} {p q : List Str} :
    e.kindAt (p ++ q) = (e.find p).bind (·.kindAt q) := by
  induction p generalizing e
  case nil => rfl
  case cons name p hi =>
    cases e
    case blob => rfl
    case tree entries =>
      rw [List.cons_append, kindAt_cons, Entry.find]
      cases entries.lookup name
      case none   => rfl
      case some e => exact hi

-- There are only directories above an entry.
theorem kindAt_above {e : Entry β} (h : e.kindAt p ≠ none) (hp : path <+: p) (hne : p ≠ path) :
    e.kindAt path = some .dir := by
  have ⟨q, hq⟩ := hp
  subst hq
  rw [kindAt_append] at h
  rw [Entry.kindAt]
  cases hf : e.find path
  case none => simp [hf] at h
  case some e' =>
    cases e'
    case tree => rfl
    case blob =>
      rw [hf, Option.bind_some, kindAt_blob (by simpa using hne)] at h
      contradiction

theorem kindAt_of_file {e : Entry β} {oid : β} (h : e.kindAt path = some (.file oid))
    (hp : path <+: p) (hne : p ≠ path) : e.kindAt p = none := by
  by_contra hn
  have hd := kindAt_above hn hp hne
  simp [h] at hd

theorem exists_deepest {u : List Str × Option β} (hu : u ∈ ups) (h : path <+: u.1) :
    ∃ u ∈ ups, path <+: u.1 ∧ ∀ u' ∈ ups, path <+: u'.1 → u'.1.length ≤ u.1.length := by
  have hmem {u : List Str × Option β} : u ∈ ups.filter (path <+: ·.1) ↔ u ∈ ups ∧ path <+: u.1 := by
    simp
  cases hm : (ups.filter (path <+: ·.1)).argmax (·.1.length)
  case none =>
    have h := hmem.mpr ⟨hu, h⟩
    rw [List.argmax_eq_none.mp hm] at h
    contradiction
  case some v =>
    have ⟨hv, hpre⟩ := hmem.mp (List.argmax_mem hm)
    exact ⟨v, hv, hpre, fun u' hu' h' => List.le_of_mem_argmax (f := (·.1.length))
      (hmem.mpr ⟨hu', h'⟩) hm⟩

-- A file above deleted paths only: the deepest directory above one of these is emptied.
theorem exists_emptied (hp : NoPrefix ups) {oid : β} (hf : base.kindAt path = some (.file oid))
    (ha : AboveUpdate ups path) (hs : ¬AboveSome ups path) : ∃ d, path <+: d ∧
    Emptied ups base d := by
  have ⟨v, hv, hpre, hne⟩ := ha
  have hnp (u) (hu : u ∈ ups) : path ≠ u.1 := fun he => hne (he.trans (hp u hu v hv (he ▸ hpre)))
  have ⟨u, hu, hpre, hmax⟩ := exists_deepest hv hpre
  have hlt : path.length < u.1.length :=
    lt_of_le_of_ne hpre.length_le fun h => hnp u hu (hpre.eq_of_length h)
  have hd : u.1.dropLast.length + 1 = u.1.length := by
    rw [List.length_dropLast]
    omega
  have hpd : path <+: u.1.dropLast :=
    List.prefix_of_prefix_length_le hpre (List.dropLast_prefix _) (by omega)
  have hdu (h : u.1.dropLast = u.1) : False := by
    rw [h] at hd
    omega
  refine ⟨u.1.dropLast, hpd, ⟨u, hu, List.dropLast_prefix _, hdu⟩, fun u' hu' h => ⟨?_, ?_⟩,
    fun p h hne hk => ?_⟩
  · have hle := hmax u' hu' (hpd.trans h)
    have hle' := h.length_le
    have hne : u.1.dropLast.length ≠ u'.1.length := by
      intro hl
      have he := h.eq_of_length hl
      exact hdu (he.trans (hp u' hu' u hu (he ▸ List.dropLast_prefix _)))
    omega
  · cases hl : lastUpdate ups u'.1
    case none => exact absurd rfl (lastUpdate_eq_none_iff.mp hl u' hu')
    case some o =>
      cases o
      case none     => rfl
      case some oid => exact absurd ⟨u'.1, oid, hl, hpd.trans h, hnp u' hu'⟩ hs
  · refine absurd (kindAt_of_file hf (hpd.trans h) fun he => hne ?_) hk
    exact (h.eq_of_length_le (he ▸ hpd.length_le)).symm

theorem emptyDir_of_emptied (hp : NoPrefix ups)
    (hr : ∀ path, result.kindAt path = place ups (base.kindAt path) path)
    (h : Emptied ups base path) : result.EmptyDir path := by
  have ⟨⟨u, hu, hpre, hne⟩, hd, hk⟩ := h
  refine ⟨?_, fun p hpp hpne => ?_⟩
  · rw [hr]
    exact place_above (lastUpdate_eq_none_of_related hp hu (.inl hpre) hne) hu hpre
  · have hc := @placed _ ups p (base.kindAt p)
    rw [← hr] at hc
    cases hv : result.kindAt p
    case none => rfl
    case some =>
      rw [hv] at hc
      cases hc
      case file oid hl =>
        have hl' := (hd _ (mem_of_lastUpdate hl) hpp).right
        simp [hl] at hl'
      case above hl ha =>
        have ⟨u, hu, hpu, hne⟩ := ha
        have hlen := (hd u hu (hpp.trans hpu)).left
        have hp' := hpp.length_le
        have hne' : path.length ≠ p.length := fun h => hpne (hpp.eq_of_length h).symm
        exact absurd (hpu.eq_of_length_le (by omega)) hne
      case unrelated hb hk' => exact absurd (hk p hpp hpne (by simp [hk'])) hb

theorem emptied_of_emptyDir (hp : NoPrefix ups)
    (hr : ∀ path, result.kindAt path = place ups (base.kindAt path) path)
    (hl : lastUpdate ups path = none) (ha : AboveUpdate ups path) (h : result.EmptyDir path) :
    Emptied ups base path := by
  have hk (p) (hpp : path <+: p) (hpne : p ≠ path) : place ups (base.kindAt p) p = none :=
    hr p ▸ h.right p hpp hpne
  have hne := lastUpdate_eq_none_iff.mp hl
  refine ⟨ha, fun u hu hpre => ⟨?_, ?_⟩, fun p hpp hpne hk' => ?_⟩
  · by_contra hlen
    have hlt : path.length < u.1.length :=
      lt_of_le_of_ne hpre.length_le fun h => hne u hu (hpre.eq_of_length h).symm
    -- The directory between the two is left.
    have ht : (u.1.take (path.length + 1)).length = path.length + 1 := List.length_take_of_le hlt
    have hpt :=
      List.prefix_of_prefix_length_le hpre (List.take_prefix (path.length + 1) u.1) (by omega)
    have htp : u.1.take (path.length + 1) ≠ path := by
      intro h
      rw [h] at ht
      omega
    have htu : u.1.take (path.length + 1) ≠ u.1 := by
      intro h
      rw [h] at ht
      omega
    have hd := hk _ hpt htp
    rw [place_above (lastUpdate_eq_none_of_related hp hu (.inl (List.take_prefix ..)) htu) hu
      (List.take_prefix ..)] at hd
    contradiction
  · have hc := @placed _ ups u.1 (base.kindAt u.1)
    rw [hk u.1 hpre (hne u hu)] at hc
    cases hc
    case deleted hl           => exact hl
    case below hl _ _ _       => exact absurd rfl (lastUpdate_eq_none_iff.mp hl u hu)
    case unrelated hau _ _    => exact absurd List.prefix_rfl (hau u hu)
  · have hc := @placed _ ups p (base.kindAt p)
    rw [hk p hpp hpne] at hc
    cases hc
    case deleted hl             => exact ⟨_, mem_of_lastUpdate hl, List.prefix_rfl⟩
    case below u hl hu hpre hne => exact ⟨u, hu, hpre⟩
    case unrelated _ _ hn       => exact absurd hn hk'

theorem applied_iff (hp : NoPrefix ups) (hb : base.kindAt [] = some .dir)
    (hr : ∀ path, result.kindAt path = place ups (base.kindAt path) path) :
    Applied ups base result ↔ EmptiesNothing ups base := by
  constructor
  case mp => exact fun h path hne he => h.none_emptied path hne (emptyDir_of_emptied hp hr he)
  case mpr =>
    intro h
    constructor
    case some_holds =>
      intro path oid hl
      simp only [hr, place, hl]
    case none_absent =>
      intro path hl
      simp only [hr, place, hl]
    case unchanged =>
      intro path oid hf hb' hs
      rw [hr, place_unrelated, hf]
      case hb => exact fun u hu hpre => hb' ⟨u, hu, hpre⟩
      case ha =>
        intro u hu hpre
        have ha : AboveUpdate ups path := ⟨u, hu, hpre, fun he => hb' ⟨u, hu, he ▸ List.prefix_rfl⟩⟩
        obtain ⟨d, hpd, he⟩ := exists_emptied hp hf ha hs
        have hne : path ≠ [] := by
          intro hnil
          simp [hnil, hb] at hf
        have hd := (h d (fun hnil => hne (List.prefix_nil.mp (hnil ▸ hpd))) he).left
        by_cases hdp : d = path
        case pos => simp [hdp, hf] at hd
        case neg => simp [kindAt_of_file hf hpd hdp] at hd
    case no_others =>
      intro path oid hf
      have hc := @placed _ ups path (base.kindAt path)
      rw [← hr, hf] at hc
      cases hc
      case file hl => exact .inl hl
      case unrelated ha hb hk =>
        refine .inr ⟨hk, hb, ?_⟩
        rintro ⟨p, _, hl, hpre, _⟩
        exact ha _ (mem_of_lastUpdate hl) hpre
    case none_emptied =>
      rintro path hne ⟨hd, hk⟩
      have hc := @placed _ ups path (base.kindAt path)
      rw [← hr, hd] at hc
      cases hc
      case above hl ha => exact h path hne (emptied_of_emptyDir hp hr hl ha ⟨hd, hk⟩)
      case unrelated ha hb' hd =>
        refine ⟨hd, fun p hpp hpne => ?_⟩
        have hk := hk p hpp hpne
        rw [hr, place_unrelated] at hk
        · exact hk
        · exact fun u hu hpu => ha u hu (hpp.trans hpu)
        · intro u hu hup
          cases List.prefix_or_prefix_of_prefix hup hpp
          case inl h => exact hb' ⟨u, hu, h⟩
          case inr h => exact ha u hu h

end CommitTree
