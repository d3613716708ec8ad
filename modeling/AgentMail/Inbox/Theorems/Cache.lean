import AgentMail.Inbox.Cache
import AgentMail.Inbox.Theorems.Basic

namespace Inbox

-- A transaction that marks messages is committed if the rows exist that it depends on.
theorem Op.exec_isOk {now : Int} {db : Db} {op : Op} (h : (op.exec now db).2) : op.finds db := by
  cases op
  case markRead agentId messageId =>
    cases hr : db.recipients.get? (messageId, agentId)
    case some => simp [finds, hr]
    case none =>
      simp only [exec, markMessageRead_of_none hr] at h
      cases h
  case acknowledge agentId messageId =>
    cases hr : db.recipients.get? (messageId, agentId)
    case some => simp [finds, hr]
    case none =>
      simp only [exec, acknowledgeMessage_of_none hr] at h
      cases h
  case markReadBatch => rfl
  case markAllRead   => rfl
  case create        => rfl

namespace System

variable {s s' : System} {a : Int} {k v c : Nat} {row : InboxStatsRow} {reader : Reader}
  {call : Call}

-- Commits and returns are not undone, and entries that have been dropped are not owed again.
structure Extends (s s' : System) : Prop where
  commits  : s.commits <+: s'.commits
  returned : s.returned ⊆ s'.returned
  owed     : ∀ k < s.commits.length, s'.owed k ⊆ s.owed k

namespace Extends

theorem length_le (h : s.Extends s') : s.commits.length ≤ s'.commits.length :=
  h.commits.length_le

theorem getElem? (h : s.Extends s') (hk : k < s.commits.length) :
    s'.commits[k]? = s.commits[k]? := by
  have ⟨l, hl⟩ := h.commits
  rw [← hl, List.getElem?_append_left hk]

theorem touches (h : s.Extends s') (hk : k < s.commits.length) :
    s'.touches k a = s.touches k a := by
  rw [System.touches, h.getElem? hk, System.touches]

end Extends

-- The row was stored at the given commit.
def Stored (s : System) (a : Int) (v : Nat) (result : Option InboxStatsRow) : Prop :=
  ∃ commit, s.commits[v]? = some commit ∧ commit.db.inboxStats.get? a = result

theorem Stored.lt {result : Option InboxStatsRow} (h : s.Stored a v result) :
    v < s.commits.length :=
  have ⟨_, h, _⟩ := h
  (List.getElem?_eq_some_iff.mp h).choose

theorem Stored.extends {result : Option InboxStatsRow} (h : s.Stored a v result)
    (he : s.Extends s') : s'.Stored a v result := by
  have ⟨commit, hc, hr⟩ := h
  exact ⟨commit, (he.getElem? h.lt).trans hc, hr⟩

def CallInv (s : System) : Call → Prop
  | .get reader             => reader.seen ⊆ s.returned
  | .read reader            => reader.seen ⊆ s.returned
  | .put reader row v       => s.Stored reader.agentId v (some row) ∧ ∀ k ∈ reader.seen, k ≤ v
  | .probe _ agents v       => v < s.commits.length ∧ s.owed v ⊆ agents
  | .invalidate todo v _    => v < s.commits.length ∧ s.owed v ⊆ todo
  | .write ..               => True
  | .commit ..              => True
  | .cleanup ..             => True

theorem CallInv.extends (h : s.CallInv call) (he : s.Extends s') : s'.CallInv call := by
  cases call
  case get        => exact List.Subset.trans h he.returned
  case read       => exact List.Subset.trans h he.returned
  case put        => exact ⟨h.left.extends he, h.right⟩
  case probe      =>
    exact ⟨h.left.trans_le he.length_le, List.Subset.trans (he.owed _ h.left) h.right⟩
  case invalidate =>
    exact ⟨h.left.trans_le he.length_le, List.Subset.trans (he.owed _ h.left) h.right⟩
  case write      => trivial
  case commit     => trivial
  case cleanup    => trivial

def EntryInv (s : System) (a : Int) (row : InboxStatsRow) : Prop :=
  ∃ v, s.Stored a v (some row) ∧ s.UpToDate a v

def AnswerInv (s : System) (x : Answer) : Prop :=
  ∀ k ∈ x.seen, k < s.commits.length ∧
    (s.touches k x.agentId → ∃ v, k ≤ v ∧ s.Stored x.agentId v x.result)

theorem AnswerInv.extends {x : Answer} (h : s.AnswerInv x) (he : s.Extends s') :
    s'.AnswerInv x := by
  intro k hk
  have ⟨hl, h⟩ := h k hk
  refine ⟨hl.trans_le he.length_le, fun ht => ?_⟩
  rw [he.touches hl] at ht
  have ⟨v, hv, hs⟩ := h ht
  exact ⟨v, hv, hs.extends he⟩

structure Inv (s : System) : Prop where
  last     : ∃ agents, s.commits.getLast? = some ⟨agents, s.db⟩
  calls    : ∀ c call, s.calls c = some call → s.CallInv call
  returned : ∀ k ∈ s.returned, k < s.commits.length ∧ s.owed k = []
  cache    : ∀ a row, s.cache a = some row → s.EntryInv a row
  answers  : ∀ x ∈ s.answers, s.AnswerInv x

theorem init_inv (db : Db) : (init db).Inv where
  last     := ⟨[], rfl⟩
  calls    := nofun
  returned := nofun
  cache    := nofun
  answers  := nofun

theorem Inv.coherent (h : s.Inv) : s.Coherent := by
  intro x hx k hk ht
  have ⟨v, hv, commit, hc, hr⟩ := (h.answers x hx k hk).right ht
  exact ⟨v, commit, hv, hc, hr⟩

-- What was stored at the last commit is the current state.
theorem Inv.stored (h : s.Inv) (a : Int) :
    s.Stored a (s.commits.length - 1) (s.db.inboxStats.get? a) := by
  have ⟨agents, hl⟩ := h.last
  exact ⟨_, List.getLast?_eq_getElem? ▸ hl, rfl⟩

-- A commit whose call has returned is not later than a cached entry for its agents.
theorem Inv.le_of_returned (h : s.Inv) (hk : k ∈ s.returned) (ht : s.touches k a)
    (hv : s.UpToDate a v) : k ≤ v := by
  by_contra hn
  have ⟨hl, ho⟩ := h.returned k hk
  have hm := hv k hl ht (Nat.lt_of_not_le hn)
  rw [ho] at hm
  cases hm

section

variable (h : s.Inv)
include h

theorem Inv.goto {call : Option Call} (hc : ∀ x, call = some x → s.CallInv x) :
    (s.goto c call).Inv where
  last     := h.last
  returned := h.returned
  cache    := h.cache
  answers  := h.answers
  calls    := by
    intro c' x hx
    by_cases he : c' = c
    case pos => exact hc x (by simpa [System.goto, he] using hx)
    case neg => exact h.calls c' x ((Function.update_of_ne he _ _).symm.trans hx)

theorem Inv.begin (hc : s.CallInv call) : (s.begin call).Inv := by
  have hg : (s.goto s.started (some call)).Inv := h.goto fun _ hx => Option.some_inj.mp hx ▸ hc
  exact { hg with }

theorem Inv.invalidate (agents : List Int) : (s.invalidate agents).Inv where
  last     := h.last
  calls    := h.calls
  returned := h.returned
  answers  := h.answers
  cache    := by
    intro a row hr
    simp only [System.invalidate] at hr
    split at hr
    case isTrue  => cases hr
    case isFalse => exact h.cache a row hr

theorem Inv.put (he : s.EntryInv row.agentId row) : (s.put row).Inv where
  last     := h.last
  calls    := h.calls
  returned := h.returned
  answers  := h.answers
  cache    := by
    intro a row' hr
    by_cases ha : a = row.agentId
    case pos =>
      subst ha
      cases (Function.update_self ..).symm.trans hr
      exact he
    case neg => exact h.cache a row' ((Function.update_of_ne ha _ _).symm.trans hr)

theorem Inv.answer {result : Option InboxStatsRow} (hx : s.AnswerInv ⟨reader, result⟩) :
    (s.answer reader result).Inv where
  last     := h.last
  calls    := h.calls
  returned := h.returned
  cache    := h.cache
  answers  := by
    intro x hm
    cases List.mem_append.mp hm
    case inl hm => exact h.answers x hm
    case inr hm => exact List.mem_singleton.mp hm ▸ hx

theorem Inv.ret (hk : k < s.commits.length) (ho : s.owed k = []) : (s.ret k).Inv where
  last     := h.last
  cache    := h.cache
  answers  := h.answers
  calls    := fun c call hc =>
    (h.calls c call hc).extends ⟨List.prefix_rfl, List.subset_append_left ..,
      fun _ _ => List.Subset.refl _⟩
  returned := by
    intro k' hm
    cases List.mem_append.mp hm
    case inl hm => exact h.returned k' hm
    case inr hm =>
      rw [List.mem_singleton.mp hm]
      exact ⟨hk, ho⟩

omit h in
theorem extends_drop (s : System) (k : Nat) (a : Int) : s.Extends (s.drop k a) := by
  refine ⟨List.prefix_rfl, List.Subset.refl _, fun k' _ => ?_⟩
  by_cases hk : k' = k
  case pos =>
    subst hk
    simp [drop]
  case neg => simp [drop, hk]

theorem Inv.drop (ha : s.cache a = none) : (s.drop k a).Inv where
  last     := h.last
  calls    := fun c call hc => (h.calls c call hc).extends (extends_drop s k a)
  answers  := h.answers
  returned := by
    intro k' hm
    have ⟨hl, ho⟩ := h.returned k' hm
    exact ⟨hl, List.subset_nil.mp (ho ▸ (extends_drop s k a).owed k' hl)⟩
  cache    := by
    intro a' row hr
    have ⟨v, hs, hu⟩ := h.cache a' row hr
    refine ⟨v, hs, fun k' hl ht hv => ?_⟩
    have hne : a' ≠ a := by
      rintro rfl
      cases ha.symm.trans hr
    have hm := hu k' hl ht hv
    by_cases hk : k' = k
    case pos =>
      subst hk
      simpa [System.drop] using ⟨hm, hne⟩
    case neg => simpa [System.drop, hk] using hm

omit h in
theorem extends_commit (s : System) (db : Db) (agents owed : List Int) :
    s.Extends (s.commit db agents owed) := by
  refine ⟨List.prefix_append .., List.Subset.refl _, fun k hk => ?_⟩
  simp [commit, hk.ne]

theorem Inv.commit {db : Db} {agents owed : List Int}
    (ha : ∀ a ∈ agents, a ∈ owed ∨ s.cache a = none) : (s.commit db agents owed).Inv := by
  have he := extends_commit s db agents owed
  refine ⟨⟨agents, by simp [System.commit]⟩, fun c call hc => (h.calls c call hc).extends he,
    fun k hm => ?_, fun a row hr => ?_, fun x hx => (h.answers x hx).extends he⟩
  · have ⟨hl, ho⟩ := h.returned k hm
    exact ⟨hl.trans_le he.length_le, List.subset_nil.mp (ho ▸ he.owed k hl)⟩
  · have ⟨v, hs, hu⟩ := h.cache a row hr
    refine ⟨v, hs.extends he, fun k hl ht hv => ?_⟩
    by_cases hk : k < s.commits.length
    case pos =>
      rw [he.touches hk] at ht
      simpa [System.commit, hk.ne] using hu k hk ht hv
    case neg =>
      -- The new commit.
      have hk : k = s.commits.length := by
        simp only [System.commit, List.length_append, List.length_singleton] at hl
        omega
      subst hk
      have hm : a ∈ agents := by simpa [System.touches, System.commit] using ht
      cases ha a hm
      case inl ho => simpa [System.commit] using ho
      case inr hn => cases hn.symm.trans hr

end

-- What a call finds in the cache is not older than what it has seen.
theorem Inv.hit (h : s.Inv) (hs : reader.seen ⊆ s.returned)
    (hc : s.cache reader.agentId = some row) : s.AnswerInv ⟨reader, some row⟩ := by
  have ⟨v, hr, hu⟩ := h.cache _ row hc
  exact fun k hk => ⟨(h.returned k (hs hk)).left,
    fun ht => ⟨v, h.le_of_returned (hs hk) ht hu, hr⟩⟩

theorem Inv.le_last (h : s.Inv) (hk : k ∈ s.returned) : k ≤ s.commits.length - 1 := by
  have := (h.returned k hk).left
  omega

theorem Inv.miss (h : s.Inv) (hs : reader.seen ⊆ s.returned)
    (hn : s.db.inboxStats.get? reader.agentId = none) : s.AnswerInv ⟨reader, none⟩ :=
  fun k hk => ⟨(h.returned k (hs hk)).left,
    fun _ => ⟨_, h.le_last (hs hk), hn ▸ h.stored reader.agentId⟩⟩

theorem Stored.agentId_eq (h : s.Stored a v (some row)) : row.agentId = a :=
  have ⟨_, _, hr⟩ := h
  (Table.get?_eq_some_iff.mp hr).right

theorem Inv.advance_put (h : s.Inv) (hc : s.CallInv (.put reader row v))
    (hu : s.UpToDate reader.agentId v) : (s.advance c (.put reader row v)).Inv := by
  have ⟨hs, hseen⟩ := hc
  have he : s.EntryInv row.agentId row := hs.agentId_eq ▸ ⟨v, hs, hu⟩
  have hx : s.AnswerInv ⟨reader, some row⟩ :=
    fun k hk => ⟨(hseen k hk).trans_lt hs.lt, fun _ => ⟨v, hseen k hk, hs⟩⟩
  exact ((h.put he).answer hx).goto nofun

-- A call that marks messages drops the entries of its agents first.
theorem Inv.advance_mark (h : s.Inv) (now : Int) (op : Op) :
    ((s.invalidate op.agents).goto c (some (.commit now op))).Inv :=
  (h.invalidate op.agents).goto fun _ hx => Option.some_inj.mp hx ▸ trivial

theorem Inv.advance_write (h : s.Inv) (now : Int) (op : Op) :
    (s.advance c (.write now op)).Inv := by
  cases op
  case create req =>
    simp only [System.advance]
    split
    case h_1 => exact h.goto nofun
    case h_2 message _ =>
      refine (h.commit fun _ => .inl).goto fun _ hx => Option.some_inj.mp hx ▸ ?_
      exact ⟨by simp [System.commit], by simp [System.commit]⟩
  case markReadBatch agentId messageIds =>
    cases messageIds
    case nil  => exact h.goto nofun
    case cons => exact h.advance_mark now _
  case markRead    => exact h.advance_mark now _
  case markAllRead => exact h.advance_mark now _
  case acknowledge => exact h.advance_mark now _

theorem Inv.advance_commit {now : Int} {op : Op} (h : s.Inv) (hg : s.CallGuarded (.commit now op)) :
    (s.advance c (.commit now op)).Inv := by
  simp only [System.advance]
  split
  case isFalse => exact h.goto nofun
  case isTrue hok =>
    refine (h.commit fun a ha => .inr (hg (Op.exec_isOk hok) a ha)).goto fun _ hx =>
      Option.some_inj.mp hx ▸ ?_
    exact ⟨by simp [System.commit], by simp [System.commit]⟩

theorem Inv.advance_invalidate {todo : List Int} {ok : Bool} (h : s.Inv)
    (hc : s.CallInv (.invalidate todo v ok)) : (s.advance c (.invalidate todo v ok)).Inv := by
  have ⟨hl, ho⟩ := hc
  cases todo
  case nil =>
    simp only [System.advance]
    split
    case isTrue  => exact (h.ret hl (List.subset_nil.mp ho)).goto nofun
    case isFalse => exact h.goto nofun
  case cons agentId todo =>
    have hd : ((s.invalidate [agentId]).drop v agentId).Inv :=
      (h.invalidate [agentId]).drop (by simp [System.invalidate])
    refine hd.goto fun _ hx => Option.some_inj.mp hx ▸ ⟨hl, fun a ha => ?_⟩
    have ⟨ha, hne⟩ : a ∈ s.owed v ∧ a ≠ agentId := by
      simpa [System.drop, System.invalidate] using ha
    exact (List.mem_cons.mp (ho ha)).resolve_left hne

theorem Inv.advance (h : s.Inv) (hc : s.calls c = some call) (hg : s.CallGuarded call) :
    (s.advance c call).Inv := by
  have hi := h.calls c call hc
  cases call
  case get reader =>
    simp only [System.advance]
    split
    case h_1 row hr => exact (h.answer (h.hit hi hr)).goto nofun
    case h_2        => exact h.goto fun _ hx => Option.some_inj.mp hx ▸ hi
  case read reader =>
    simp only [System.advance]
    split
    case h_2 hn     => exact (h.answer (h.miss hi hn)).goto nofun
    case h_1 row hr =>
      refine h.goto fun _ hx =>
        Option.some_inj.mp hx ▸ ⟨hr ▸ h.stored reader.agentId, fun k hk => ?_⟩
      exact h.le_last (hi hk)
  case put                           => exact h.advance_put hi hg
  case write now op                  => exact h.advance_write now op
  case commit now op                 => exact h.advance_commit hg
  case probe                         => exact h.goto fun _ hx => Option.some_inj.mp hx ▸ hi
  case invalidate                    => exact h.advance_invalidate hi
  case cleanup message agents        =>
    refine (h.commit fun _ => .inl).goto fun _ hx => Option.some_inj.mp hx ▸ ?_
    exact ⟨by simp [System.commit], by simp [System.commit]⟩

theorem step_inv {e : Event} (h : s.Inv) (hg : s.Guarded e) (hs : s.step e = some s') : s'.Inv := by
  cases e
  case evict agentId => cases hs; exact h.invalidate [agentId]
  case get agentId   => cases hs; exact h.begin (List.Subset.refl _)
  case write now op  => cases hs; exact h.begin trivial
  case fail c        => cases hs; exact h.goto nofun
  case advance c     =>
    have ⟨call, hc, he⟩ := Option.map_eq_some_iff.mp hs
    exact he ▸ h.advance hc (hg call hc)
  case retry c       =>
    simp only [step] at hs
    split at hs <;> cases hs
    exact h.goto fun _ hx => Option.some_inj.mp hx ▸ trivial
  case probeFails c  =>
    simp only [step] at hs
    split at hs <;> cases hs
    exact h.goto fun _ hx => Option.some_inj.mp hx ▸ trivial

theorem run_coherent {db : Db} {es : List Event} (hc : Along step Guarded (init db) es)
    (h : run step (init db) es = some s) : s.Coherent :=
  (Run.invariant_along step_inv (init_inv db) hc h).coherent

-- A message is sent to agent 7, who reads it between two calls.
theorem run_coherent_read :
    ∃ s, run step (init (.empty true))
        [.write 5 (.create ⟨1, true, [(7, "to".toList)]⟩), .advance 0, .advance 0, .advance 0,
          .advance 0, .get 7, .advance 1, .advance 1, .advance 1, .write 9 (.markRead 7 1),
            .advance 2,
          .advance 2, .advance 2, .get 7, .advance 3, .advance 3, .advance 3] = some s ∧
      s.answers.map Answer.result = [some ⟨7, 1, 1, 1, some 5⟩, some ⟨7, 1, 0, 0, some 5⟩] ∧
      s.Coherent := by
  have hrun : ((run step (init (.empty true))
      [.write 5 (.create ⟨1, true, [(7, "to".toList)]⟩), .advance 0, .advance 0, .advance 0,
        .advance 0, .get 7, .advance 1, .advance 1, .advance 1, .write 9 (.markRead 7 1),
        .advance 2, .advance 2, .advance 2, .get 7, .advance 3, .advance 3, .advance 3]).map
      fun s => s.answers.map Answer.result) =
        some [some ⟨7, 1, 1, 1, some 5⟩, some ⟨7, 1, 0, 0, some 5⟩] := by decide +kernel
  have ⟨s, h, hs⟩ := Option.map_eq_some_iff.mp hrun
  exact ⟨s, h, hs, run_coherent (by decide +kernel) h⟩

-- The cached entry is dropped, then filled again by another call, and only then the message is
-- marked as read. The next call still finds it unread.
theorem not_coherent_refilled :
    ∃ s, run step (init (.empty true))
        [.write 5 (.create ⟨1, true, [(7, "to".toList)]⟩), .advance 0, .advance 0, .advance 0,
          .advance 0, .write 9 (.markRead 7 1), .advance 1, .get 7, .advance 2, .advance 2,
            .advance 2,
          .advance 1, .advance 1, .get 7, .advance 3] = some s ∧ ¬s.Coherent := by
  have hrun : ((run step (init (.empty true))
      [.write 5 (.create ⟨1, true, [(7, "to".toList)]⟩), .advance 0, .advance 0, .advance 0,
        .advance 0, .write 9 (.markRead 7 1), .advance 1, .get 7, .advance 2, .advance 2,
        .advance 2, .advance 1, .advance 1, .get 7, .advance 3]).map fun s => decide (
      (s.answers.map fun x => (x.agentId, x.seen, x.result)) =
        [(7, [1], some ⟨7, 1, 1, 1, some 5⟩), (7, [1, 2], some ⟨7, 1, 1, 1, some 5⟩)] ∧
      s.touches 2 7 ∧
      (s.commits.map fun commit => commit.db.inboxStats.get? 7) =
        [none, some ⟨7, 1, 1, 1, some 5⟩, some ⟨7, 1, 0, 0, some 5⟩])) = some true := by
    decide +kernel
  have ⟨s, h, hs⟩ := Option.map_eq_some_iff.mp hrun
  have ⟨hans, ht, hstats⟩ := of_decide_eq_true hs
  refine ⟨s, h, fun hcoh => ?_⟩
  have hx : (7, [1, 2], some ⟨7, 1, 1, 1, some 5⟩) ∈
      s.answers.map fun x => (x.agentId, x.seen, x.result) := by simp [hans]
  have ⟨x, hx, he⟩ := List.mem_map.mp hx
  simp only [Prod.mk.injEq] at he
  have ⟨hagent, hseen, hres⟩ := he
  have ⟨v, commit, hv, hc, hr⟩ := hcoh x hx 2 (by simp [hseen]) (hagent ▸ ht)
  have hv' : (s.commits.map fun commit => commit.db.inboxStats.get? 7)[v]? =
      some (some ⟨7, 1, 1, 1, some 5⟩) := by
    rw [List.getElem?_map, hc, Option.map_some, ← hres, ← hr, hagent]
  rw [hstats] at hv'
  -- There is only one commit that has to be looked at.
  have hlt : v < 3 := (List.getElem?_eq_some_iff.mp hv').choose
  have hv : v = 2 := by omega
  subst hv
  cases hv'

end System
end Inbox
