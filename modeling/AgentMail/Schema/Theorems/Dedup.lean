import AgentMail.Schema.References

open Pattern (Str)

namespace Schema

variable {agents : List AgentRow} {a b : AgentRow} {db db' : Indexed}

theorem SameName.refl (a : AgentRow) : SameName a a :=
  ⟨rfl, rfl⟩

theorem SameName.symm (h : SameName a b) : SameName b a :=
  ⟨h.left.symm, h.right.symm⟩

theorem SameName.trans {c : AgentRow} (h : SameName a b) (h' : SameName b c) : SameName a c :=
  ⟨h.left.trans h'.left, h.right.trans h'.right⟩

theorem foldl_min_spec (l : List AgentRow) (n : Int) :
    (l.foldl (fun id b => min id b.id) n = n ∨
      ∃ b ∈ l, l.foldl (fun id b => min id b.id) n = b.id) ∧
      l.foldl (fun id b => min id b.id) n ≤ n ∧
      ∀ b ∈ l, l.foldl (fun id b => min id b.id) n ≤ b.id := by
  induction l generalizing n
  case nil => exact ⟨.inl rfl, Int.le_refl n, nofun⟩
  case cons b l hi =>
    have ⟨he, hn, hl⟩ := hi (min n b.id)
    rw [List.foldl_cons]
    refine ⟨?_, Int.le_trans hn (Int.min_le_left ..),
      List.forall_mem_cons.mpr ⟨Int.le_trans hn (Int.min_le_right ..), hl⟩⟩
    obtain he | ⟨c, hc, he⟩ := he
    · cases Int.le_total n b.id
      case inl h => exact .inl (he.trans (Int.min_eq_left h))
      case inr h => exact .inr ⟨b, List.mem_cons_self, he.trans (Int.min_eq_right h)⟩
    · exact .inr ⟨c, List.mem_cons_of_mem _ hc, he⟩

theorem exists_minId (ha : a ∈ agents) : ∃ b ∈ agents, SameName a b ∧ b.id = minId agents a := by
  have ⟨he, _, _⟩ := foldl_min_spec (agents.filter (SameName a ·)) a.id
  obtain he | ⟨b, hb, he⟩ := he
  · exact ⟨a, ha, .refl a, he.symm⟩
  · have ⟨hb, hs⟩ := List.mem_filter.mp hb
    exact ⟨b, hb, of_decide_eq_true hs, he.symm⟩

theorem minId_le (hb : b ∈ agents) (h : SameName a b) : minId agents a ≤ b.id :=
  (foldl_min_spec (agents.filter (SameName a ·)) a.id).right.right b
    (List.mem_filter.mpr ⟨hb, decide_eq_true h⟩)

-- The oldest agent of each name is kept.
theorem mem_dedupAgents : a ∈ (dedupAgents db).agents.rows ↔ a ∈ db.agents.rows ∧
    Oldest db.agents a := by
  simp only [dedupAgents, Table.delete, List.mem_filter, decide_not, Bool.not_not,
    decide_eq_true_eq]
  refine and_congr_right fun ha => ?_
  constructor
  case mp =>
    intro hm b hb hs
    obtain ⟨c, hc, he⟩ := List.mem_map.mp hm
    obtain ⟨d, hd, hcd, hde⟩ := exists_minId hc
    -- Ids are unique, so that the agent is the oldest one of its group.
    have hda : d = a := List.inj_on_of_nodup_map db.agents.nodup hd ha (hde.trans he)
    rw [← he]
    exact minId_le hb (hcd.trans (hda ▸ hs))
  case mpr =>
    intro ho
    obtain ⟨b, hb, hs, he⟩ := exists_minId ha
    exact List.mem_map.mpr ⟨a, ha, Int.le_antisymm (minId_le ha (.refl a)) (he ▸ ho b hb hs)⟩

theorem uniqueNames_dedupAgents (db : Indexed) : UniqueNames (dedupAgents db).agents := by
  intro a ha b hb hs
  have ⟨ha, hoa⟩ := mem_dedupAgents.mp ha
  have ⟨hb, hob⟩ := mem_dedupAgents.mp hb
  exact List.inj_on_of_nodup_map db.agents.nodup ha hb
    (Int.le_antisymm (hoa b hb hs) (hob a ha hs.symm))

-- There are no duplicates left that keep the index from being created.
theorem migrateAgents_eq (db : Indexed) :
    ∃ db', migrateAgents db = some db' ∧ db'.toDatabase = (dedupAgents db).toDatabase :=
  ⟨_, dif_pos (uniqueNames_dedupAgents db), rfl⟩

theorem get?_dedupAgents {id : Int} :
    (dedupAgents db).agents.get? id = some a ↔ db.agents.get? id = some a ∧ Oldest db.agents a := by
  rw [Table.get?_eq_some_iff, Table.get?_eq_some_iff, mem_dedupAgents]
  exact and_right_comm

theorem keepsRows_iff {ρ : Type} {rows : List ρ} {agentId : ρ → Int} :
    KeepsRows db.agents (dedupAgents db).agents rows rows agentId ↔
      ∀ row ∈ rows, ∀ a ∈ db.agents.rows, a.id = agentId row → Oldest db.agents a := by
  refine forall_congr' fun row => forall_congr' fun hr => forall_congr' fun a => ?_
  rw [Table.get?_eq_some_iff, and_imp]
  refine forall_congr' fun ha => forall_congr' fun he => ?_
  constructor
  case mp =>
    intro ⟨_, a', hg, _⟩
    have ⟨hg, ho⟩ := get?_dedupAgents.mp hg
    rw [← he, Table.get?_key ha] at hg
    cases hg
    exact ho
  case mpr =>
    intro ho
    exact ⟨hr, a, get?_dedupAgents.mpr ⟨he ▸ Table.get?_key ha, ho⟩, .refl a⟩

-- Agents that rows refer to are found as before.
theorem isSome_get?_dedupAgents (ho : OldestReferenced db.toDatabase) {id : Int}
    (hr : Reference db.toDatabase id) :
    ((dedupAgents db).agents.get? id).isSome = (db.agents.get? id).isSome := by
  cases hg : db.agents.get? id
  case none =>
    cases hg' : (dedupAgents db).agents.get? id
    case none   => rfl
    case some a => rw [(get?_dedupAgents.mp hg').left] at hg; cases hg
  case some a =>
    have ⟨ha, he⟩ := Table.get?_eq_some_iff.mp hg
    rw [get?_dedupAgents.mpr ⟨hg, ho id hr a ha he⟩]

theorem OldestReferenced.losesNoMail (ho : OldestReferenced db.toDatabase) :
    LosesNoMail db.toDatabase (dedupAgents db).toDatabase where
  unique       := uniqueNames_dedupAgents db
  messages     := keepsRows_iff.mpr fun _ h => ho _ (.sender h)
  recipients   := keepsRows_iff.mpr fun _ h => ho _ (.recipient h)
  reservations := keepsRows_iff.mpr fun _ h => ho _ (.reservation h)
  linksA       := keepsRows_iff.mpr fun _ h => ho _ (.linkA h)
  linksB       := keepsRows_iff.mpr fun _ h => ho _ (.linkB h)
  sent         := List.filter_congr fun _ h => isSome_get?_dedupAgents ho (.sender h)
  received     := by
    refine List.filterMap_congr fun r h => ?_
    rw [isSome_get?_dedupAgents ho (.recipient h)]
    rfl

theorem LosesNoMail.oldestReferenced
    (h : LosesNoMail db.toDatabase (dedupAgents db).toDatabase) :
    OldestReferenced db.toDatabase := by
  intro id hr
  cases hr
  case sender hr      => exact keepsRows_iff.mp h.messages _ hr
  case recipient hr   => exact keepsRows_iff.mp h.recipients _ hr
  case reservation hr => exact keepsRows_iff.mp h.reservations _ hr
  case linkA hr       => exact keepsRows_iff.mp h.linksA _ hr
  case linkB hr       => exact keepsRows_iff.mp h.linksB _ hr

theorem migrateAgents_losesNoMail_iff (db : Indexed) :
    (∃ db', migrateAgents db = some db' ∧ LosesNoMail db.toDatabase db'.toDatabase) ↔
      OldestReferenced db.toDatabase := by
  have ⟨db', hm, hd⟩ := migrateAgents_eq db
  constructor
  case mp =>
    intro ⟨db'', hm', hl⟩
    cases hm.symm.trans hm'
    exact (hd ▸ hl).oldestReferenced
  case mpr => exact fun ho => ⟨db', hm, hd ▸ ho.losesNoMail⟩

-- Two agents whose names only differ in case, and a message of the newer one.
def duplicated : Indexed where
  toDatabase  := { Database.empty with
    projects := ⟨[⟨1, "mail".toList, "/mail".toList⟩], by decide⟩
    agents   :=
      ⟨[⟨1, 1, "BlueLake".toList, [], "auto".toList⟩, ⟨2, 1, "bluelake".toList, [], "auto".toList⟩],
        by decide⟩
    messages := ⟨[⟨7, 1, 2, none, "plan".toList, [], "normal".toList, 0, 0⟩],
      List.nodup_singleton _⟩ }
  nocaseIndex := false
  unique      := nofun

-- The message is not found any more.
theorem not_losesNoMail_newer : Resolved duplicated.toDatabase ∧
    ¬∃ db', migrateAgents duplicated = some db' ∧
      LosesNoMail duplicated.toDatabase db'.toDatabase := by
  constructor
  case left =>
    intro id hr
    cases hr
    case sender row hr =>
      cases List.mem_singleton.mp hr
      decide
    all_goals contradiction
  case right =>
    intro ⟨db', hm, hl⟩
    have hs : (migrateAgents duplicated).map (fun db' => sentMessages db'.toDatabase) =
        some [] := by
      decide
    rw [hm] at hs
    have hs := hl.sent.symm.trans (Option.some.inj hs)
    exact absurd hs (by decide)

end Schema
