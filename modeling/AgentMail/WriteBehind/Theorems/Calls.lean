import Mathlib.Data.Finset.Card
import AgentMail.WriteBehind.Theorems.Basic

namespace WriteBehind

variable {ι ω : Type}

namespace Ledger

variable {l : Ledger ι ω} {m : Msg ι ω} {a : Call ι} {pre post : List (Msg ι ω)}

theorem calls_send : (l.send m).calls = l.calls ++ m.call?.toList := by
  cases hm : m.call? <;> simp [send, calls, hm]

theorem mem_acceptedCalls_send : a ∈ (l.send m).accepted.map Envelope.call ↔
    a ∈ l.accepted.map Envelope.call ∨ ∃ x, m = .op x ∧ x.call = a := by
  rw [accepted_send, List.map_append, List.mem_append]
  cases m <;> simp [Msg.op?, eq_comm]

theorem acceptedCalls_sublist : (l.accepted.map Envelope.call).Sublist l.calls := by
  unfold accepted calls
  induction l.sent
  case nil => exact List.Sublist.refl _
  case cons m ms hi =>
    cases m
    case op x       => exact hi.cons_cons x.call
    case flush done => exact hi.cons done
    case shutdown   => exact hi

-- The messages before one with a number are determined.
theorem pre_unique {pre' post' : List (Msg ι ω)} (h : l.calls.Nodup) (hm : m.call? = some a)
    (he : l.sent = pre ++ m :: post) (he' : l.sent = pre' ++ m :: post') : pre' = pre := by
  rw [calls, he', List.filterMap_append, List.filterMap_cons_some hm] at h
  have hpre : m ∉ pre' := fun hp =>
    List.disjoint_of_nodup_append h (List.mem_filterMap.mpr ⟨m, hp, hm⟩) List.mem_cons_self
  have hpost : m ∉ post' := fun hp =>
    (List.nodup_cons.mp h.of_append_right).left (List.mem_filterMap.mpr ⟨m, hp, hm⟩)
  exact ((List.append_cons_inj_of_notMem hpre hpost).mp (he'.symm.trans he)).left

end Ledger

namespace System

variable {s s' : System ι ω} {i : ι} {p p' : Phase ω} {c : Nat} {expired : Bool} {m : Msg ι ω}

structure Frame (s s' : System ι ω) : Prop where
  channels : s'.channels = s.channels
  spawned  : s'.spawned = s.spawned
  ledger   : s'.ledger = s.ledger
  calls    : s'.calls = s.calls

-- Every call has sent at most one numbered message, and its result tells whether it has sent an
-- operation.
structure Numbered (s : System ι ω) : Prop where
  ordered  : s.ledger.calls.Pairwise Call.Before
  bounded  : ∀ a ∈ s.ledger.calls, a.seq ≤ s.calls a.caller
  unsent   : ∀ i, (s.threads i).isUnsent → ⟨i, s.calls i⟩ ∉ s.ledger.calls
  recorded : ∀ i, (s.threads i).isRecord → ⟨i, s.calls i⟩ ∈ s.ledger.accepted.map Envelope.call
  returned : ∀ i n r, s.results i n = some r →
    (n < s.calls i ∨ n = s.calls i ∧ s.threads i = .idle) ∧
      (r = .enqueued ↔ ⟨i, n⟩ ∈ s.ledger.accepted.map Envelope.call)

theorem init_numbered : (init : System ι ω).Numbered where
  ordered  := List.Pairwise.nil
  bounded  := nofun
  unsent   := nofun
  recorded := nofun
  returned := nofun

-- A thread whose call has not returned has no result yet.
theorem Numbered.lt_calls (h : s.Numbered) (hi : s.threads i ≠ .idle) {n : Nat} {r : EnqueueResult}
    (hr : s.results i n = some r) : n < s.calls i :=
  ((h.returned i n r hr).left).resolve_right fun hn => hi hn.right

variable [DecidableEq ι]

-- What one step of a thread does to the messages and to the results of calls.
inductive Moves (s : System ι ω) (i : ι) : System ι ω → Prop
  | quiet {s' : System ι ω} (p : Phase ω)
      (frame   : s.Frame s')
      (threads : s'.threads = Function.update s.threads i p)
      (results : s'.results = s.results)
      (unsent  : p.isUnsent → (s.threads i).isUnsent)
      (was     : (s.threads i).isRecord = false)
      (record  : p.isRecord = false) :
      Moves s i s'
  | refuse {s' : System ι ω} (r : EnqueueResult)
      (frame   : s.Frame s')
      (threads : s'.threads = Function.update s.threads i .idle)
      (results : s'.results = (s.finish i r).results)
      (unsent  : (s.threads i).isUnsent)
      (refused : r ≠ .enqueued) :
      Moves s i s'
  | record {s' : System ι ω}
      (frame   : { s with ledger := s.ledger.record }.Frame s')
      (threads : s'.threads = Function.update s.threads i .idle)
      (results : s'.results = (s.finish i .enqueued).results)
      (was     : (s.threads i).isRecord) :
      Moves s i s'
  | spawn {s' : System ι ω} (r : Option (Request ω)) (p : Phase ω)
      (frame   : s.addChannel.Frame s')
      (threads : s'.threads = Function.update s.threads i p)
      (results : s'.results = s.results)
      (was     : s.threads i = .spawn r)
      (record  : p.isRecord = false) :
      Moves s i s'
  | sendOp {s' : System ι ω} (c : Nat) (x : Envelope ι ω) (p : Phase ω)
      (frame   : (s.push c (.op x)).Frame s')
      (threads : s'.threads = Function.update s.threads i p)
      (results : s'.results = s.results)
      (alive   : (s.channels c).drain.isFinished = false)
      (sends   : (s.threads i).sends = some c)
      (call    : x.call = ⟨i, s.calls i⟩)
      (unsent  : p.isUnsent = false)
      (record  : p.isRecord) :
      Moves s i s'
  | sendFlush {s' : System ι ω} (c : Nat) (p : Phase ω)
      (frame   : (s.push c (.flush ⟨i, s.calls i⟩)).Frame s')
      (threads : s'.threads = Function.update s.threads i p)
      (results : s'.results = s.results)
      (alive   : (s.channels c).drain.isFinished = false)
      (was     : (s.threads i).isUnsent)
      (unsent  : p.isUnsent = false)
      (record  : p.isRecord = false) :
      Moves s i s'
  | sendShutdown {s' : System ι ω} (c : Nat) (p : Phase ω)
      (frame   : (s.push c .shutdown).Frame s')
      (threads : s'.threads = Function.update s.threads i p)
      (results : s'.results = s.results)
      (alive   : (s.channels c).drain.isFinished = false)
      (was     : (s.threads i).isRecord = false)
      (unsent  : p.isUnsent = false)
      (record  : p.isRecord = false) :
      Moves s i s'

theorem advance_moves (hi : s.threads i = p) (hs : s.advance i expired p = some s') :
    p ≠ .idle ∧ s.Moves i s' := by
  cases p <;> simp only [advance] at hs
  case idle => cases hs
  all_goals refine ⟨(by rintro ⟨⟩), ?_⟩
  case lock r =>
    obtain ⟨_, hs⟩ := lock_eq hs
    exact hs ▸ .quiet _ ⟨rfl, rfl, rfl, rfl⟩ rfl rfl (fun _ => hi ▸ rfl) (hi ▸ rfl) rfl
  case check r =>
    split at hs
    case h_1 =>
      cases hs
      exact .quiet _ ⟨rfl, rfl, rfl, rfl⟩ rfl rfl (fun _ => hi ▸ rfl) (hi ▸ rfl) rfl
    case h_2 =>
      split at hs <;> cases hs
      case isTrue => exact .quiet _ ⟨rfl, rfl, rfl, rfl⟩ rfl rfl (fun _ => hi ▸ rfl) (hi ▸ rfl) rfl
      case isFalse =>
        exact .quiet _ ⟨rfl, rfl, rfl, rfl⟩ rfl rfl (fun _ => hi ▸ rfl) (hi ▸ rfl)
          (Phase.afterStart_eq r).right.right
  case spawn r =>
    cases hs
    exact .spawn r _ ⟨rfl, rfl, rfl, rfl⟩ rfl rfl hi rfl
  case publish r c =>
    obtain ⟨n, hn⟩ := s.setSender_eq (some c)
    rw [hn] at hs
    cases hs
    exact .quiet _ ⟨rfl, rfl, rfl, rfl⟩ rfl rfl (fun _ => hi ▸ rfl) (hi ▸ rfl) rfl
  case register r c =>
    cases hs
    exact .quiet _ ⟨rfl, rfl, rfl, rfl⟩ rfl rfl (fun _ => hi ▸ rfl) (hi ▸ rfl)
      (Phase.afterStart_eq r).right.right
  case clone r =>
    split at hs
    case h_1 =>
      cases hs
      exact .refuse _ ⟨rfl, rfl, rfl, rfl⟩ rfl rfl (hi ▸ rfl) (by rintro ⟨⟩)
    case h_2 =>
      split at hs <;> cases hs
      case isTrue  => exact .refuse _ ⟨rfl, rfl, rfl, rfl⟩ rfl rfl (hi ▸ rfl) (by rintro ⟨⟩)
      case isFalse => exact .quiet _ ⟨rfl, rfl, rfl, rfl⟩ rfl rfl (fun _ => hi ▸ rfl) (hi ▸ rfl) rfl
  case send c op retrying =>
    split at hs
    case isTrue =>
      cases hs
      exact .refuse _ ⟨rfl, rfl, rfl, rfl⟩ rfl rfl (hi ▸ rfl) (by rintro ⟨⟩)
    case isFalse hf =>
      split at hs
      case isTrue =>
        cases hs
        exact .sendOp c _ _ ⟨rfl, rfl, rfl, rfl⟩ rfl rfl (Bool.eq_false_iff.mpr hf)
          (hi ▸ rfl) rfl rfl rfl
      case isFalse =>
        split at hs <;> cases hs
        case isTrue  => exact .refuse _ ⟨rfl, rfl, rfl, rfl⟩ rfl rfl (hi ▸ rfl) (by rintro ⟨⟩)
        case isFalse =>
          exact .quiet _ ⟨rfl, rfl, rfl, rfl⟩ rfl rfl (fun _ => hi ▸ rfl) (hi ▸ rfl) rfl
  case record c =>
    cases hs
    exact .record ⟨rfl, rfl, rfl, rfl⟩ rfl rfl (hi ▸ rfl)
  case flushClone stop =>
    split at hs <;> cases hs
    case h_1 =>
      refine .quiet _ ⟨rfl, rfl, rfl, rfl⟩ rfl rfl (fun _ => hi ▸ rfl) (hi ▸ rfl) ?_
      cases stop <;> rfl
    case h_2 => exact .quiet _ ⟨rfl, rfl, rfl, rfl⟩ rfl rfl (fun _ => hi ▸ rfl) (hi ▸ rfl) rfl
  case flushSend stop c =>
    split at hs
    case isTrue =>
      cases stop <;> cases hs <;>
        exact .quiet _ ⟨rfl, rfl, rfl, rfl⟩ rfl rfl (fun _ => hi ▸ rfl) (hi ▸ rfl) rfl
    case isFalse hf =>
      split at hs <;> cases hs
      case isTrue =>
        exact .sendFlush c _ ⟨rfl, rfl, rfl, rfl⟩ rfl rfl (Bool.eq_false_iff.mpr hf)
          (hi ▸ rfl) rfl rfl
  case flushWait stop c =>
    split at hs
    case isTrue =>
      cases stop <;> cases hs <;>
        exact .quiet _ ⟨rfl, rfl, rfl, rfl⟩ rfl rfl (by rintro ⟨⟩) (hi ▸ rfl) rfl
    case isFalse => cases hs
  case stopLock =>
    obtain ⟨_, hs⟩ := lock_eq hs
    exact hs ▸ .quiet _ ⟨rfl, rfl, rfl, rfl⟩ rfl rfl (fun _ => hi ▸ rfl) (hi ▸ rfl) rfl
  case stopSend c =>
    split at hs
    case isTrue =>
      cases hs
      exact .quiet _ ⟨rfl, rfl, rfl, rfl⟩ rfl rfl (by rintro ⟨⟩) (hi ▸ rfl) rfl
    case isFalse hf =>
      split at hs <;> cases hs
      case isTrue =>
        exact .sendShutdown c _ ⟨rfl, rfl, rfl, rfl⟩ rfl rfl (Bool.eq_false_iff.mpr hf)
          (hi ▸ rfl) rfl rfl
  case stopClear =>
    obtain ⟨n, hn⟩ := s.setSender_eq none
    rw [hn] at hs
    cases hs
    exact .quiet _ ⟨rfl, rfl, rfl, rfl⟩ rfl rfl (by rintro ⟨⟩) (hi ▸ rfl) rfl
  case stopTake =>
    split at hs <;> cases hs <;> exact .quiet _ ⟨rfl, rfl, rfl, rfl⟩ rfl rfl (by rintro ⟨⟩)
      (hi ▸ rfl) rfl
  case stopJoin c =>
    split at hs <;> cases hs
    exact .quiet _ ⟨rfl, rfl, rfl, rfl⟩ rfl rfl (by rintro ⟨⟩) (hi ▸ rfl) rfl

theorem finish_results {i j : ι} {n : Nat} {r r' : EnqueueResult}
    (h : (s.finish i r).results j n = some r') :
    j = i ∧ n = s.calls i ∧ r' = r ∨ s.results j n = some r' := by
  simp only [finish] at h
  by_cases hj : j = i
  case neg =>
    rw [Function.update_of_ne hj] at h
    exact .inr h
  case pos =>
    subst hj
    rw [Function.update_self] at h
    by_cases hn : n = s.calls j
    case neg =>
      rw [Function.update_of_ne hn] at h
      exact .inr h
    case pos =>
      rw [hn, Function.update_self] at h
      exact .inl ⟨rfl, hn, (Option.some.inj h).symm⟩

-- A thread goes on, and all messages stay as they are.
theorem Numbered.goto (h : s.Numbered) (hi : s.threads i ≠ .idle)
    (ht : s'.threads = Function.update s.threads i p) (hs : s'.ledger.sent = s.ledger.sent)
    (hc : s'.calls = s.calls) (hu : p.isUnsent → (s.threads i).isUnsent)
    (hr : p.isRecord → (s.threads i).isRecord)
    (hres : ∀ j n r, s'.results j n = some r → s.results j n = some r ∨
      j = i ∧ n = s.calls i ∧ p = .idle ∧
        (r = .enqueued ↔ ⟨i, s.calls i⟩ ∈ s.ledger.accepted.map Envelope.call)) : s'.Numbered := by
  have hcalls : s'.ledger.calls = s.ledger.calls := by rw [Ledger.calls, Ledger.calls, hs]
  have hacc : s'.ledger.accepted = s.ledger.accepted := by rw [Ledger.accepted, Ledger.accepted, hs]
  refine ⟨hcalls ▸ h.ordered, by rw [hcalls, hc]; exact h.bounded, ?_, ?_, fun j n r hjn => ?_⟩
  · rw [ht, hc, hcalls]
    exact (Function.forall_update_iff s.threads fun j p =>
      p.isUnsent → ⟨j, s.calls j⟩ ∉ s.ledger.calls).mpr
        ⟨fun hp => h.unsent i (hu hp), fun j _ => h.unsent j⟩
  · rw [ht, hc, hacc]
    exact (Function.forall_update_iff s.threads fun j p =>
      p.isRecord → ⟨j, s.calls j⟩ ∈ s.ledger.accepted.map Envelope.call).mpr
        ⟨fun hp => h.recorded i (hr hp), fun j _ => h.recorded j⟩
  · rw [ht, hc, hacc]
    obtain hjn | ⟨rfl, rfl, hp, hiff⟩ := hres j n r hjn
    · obtain ⟨hn, hiff⟩ := h.returned j n r hjn
      by_cases hji : j = i
      case pos => exact ⟨.inl (h.lt_calls (hji ▸ hi) hjn), hiff⟩
      case neg => exact ⟨by rwa [Function.update_of_ne hji], hiff⟩
    · exact ⟨.inr ⟨rfl, by rw [Function.update_self, hp]⟩, hiff⟩

-- A thread sends a message, which has the number of its call.
theorem Numbered.send (h : s.Numbered) (hi : s.threads i ≠ .idle)
    (ht : s'.threads = Function.update s.threads i p) (hs : s'.ledger = s.ledger.send m)
    (hc : s'.calls = s.calls) (hr : s'.results = s.results)
    (hm : ∀ a, m.call? = some a → a = ⟨i, s.calls i⟩ ∧ (s.threads i).isUnsent)
    (hu : p.isUnsent = false) (hrec : p.isRecord → ∃ x, m = .op x) : s'.Numbered := by
  have hcall (x : Envelope ι ω) (he : m = .op x) : x.call = ⟨i, s.calls i⟩ :=
    (hm x.call (he ▸ rfl)).left
  have hmem (a : Call ι) (ha : a ∈ s'.ledger.calls) : a ∈ s.ledger.calls ∨ m.call? = some a := by
    rw [hs, Ledger.calls_send] at ha
    exact (List.mem_append.mp ha).imp_right Option.mem_toList.mp
  refine ⟨?_, fun a ha => ?_, ?_, ?_, fun j n r hjn => ?_⟩
  · rw [hs, Ledger.calls_send]
    refine List.pairwise_append.mpr ⟨h.ordered, ?_, fun a ha b hb => ?_⟩
    · cases m.call?
      case none   => exact List.Pairwise.nil
      case some a => exact List.pairwise_singleton _ a
    · obtain ⟨rfl, hi'⟩ := hm b (Option.mem_toList.mp hb)
      obtain ⟨caller, seq⟩ := a
      rintro (rfl : caller = i)
      refine Nat.lt_of_le_of_ne (h.bounded _ ha) fun (hseq : seq = s.calls caller) => ?_
      exact h.unsent caller hi' (hseq ▸ ha)
  · rw [hc]
    obtain ha | ha := hmem a ha
    · exact h.bounded a ha
    · rw [(hm a ha).left]
  · rw [ht, hc]
    refine (Function.forall_update_iff s.threads fun j p =>
      p.isUnsent → ⟨j, s.calls j⟩ ∉ s'.ledger.calls).mpr ⟨fun hp => ?_, fun j hji hj ha => ?_⟩
    · cases hu.symm.trans hp
    · obtain ha | ha := hmem _ ha
      · exact h.unsent j hj ha
      · exact hji (congrArg Call.caller (hm _ ha).left)
  · rw [ht, hc, hs]
    refine (Function.forall_update_iff s.threads fun j p =>
      p.isRecord → ⟨j, s.calls j⟩ ∈ (s.ledger.send m).accepted.map Envelope.call).mpr
        ⟨fun hp => ?_, fun j _ hj => Ledger.mem_acceptedCalls_send.mpr (.inl (h.recorded j hj))⟩
    have ⟨x, hx⟩ := hrec hp
    exact Ledger.mem_acceptedCalls_send.mpr (.inr ⟨x, hx, hcall x hx⟩)
  · rw [hr] at hjn
    have ⟨hn, hiff⟩ := h.returned j n r hjn
    have hlt (hji : j = i) : n < s.calls j := h.lt_calls (hji ▸ hi) hjn
    rw [ht, hs, hc, Ledger.mem_acceptedCalls_send]
    refine ⟨?_, hiff.trans (or_iff_left ?_).symm⟩
    · by_cases hji : j = i
      case pos => exact .inl (hlt hji)
      case neg => rwa [Function.update_of_ne hji]
    · rintro ⟨x, hx, he⟩
      have he' := he.symm.trans (hcall x hx)
      have hji : j = i := congrArg Call.caller he'
      exact (hlt hji).ne (hji ▸ congrArg Call.seq he')

theorem Numbered.moves (h : s.Numbered) (hi : s.threads i ≠ .idle) (hm : s.Moves i s') :
    s'.Numbered := by
  cases hm
  case quiet p hf ht hr hu _ hrec =>
    refine h.goto hi ht (by rw [hf.ledger]) hf.calls hu (fun hp => ?_) fun j n r hjn => ?_
    · cases hrec.symm.trans hp
    · exact .inl (hr ▸ hjn)
  case refuse r hf ht hr hu hne =>
    refine h.goto hi ht (by rw [hf.ledger]) hf.calls nofun nofun fun j n r' hjn => ?_
    rw [hr] at hjn
    obtain ⟨hj, hn, hr'⟩ | hjn := finish_results hjn
    · refine .inr ⟨hj, hn, rfl, fun he => absurd (hr'.symm.trans he) hne, fun hm => ?_⟩
      exact absurd (Ledger.acceptedCalls_sublist.subset hm) (h.unsent i hu)
    · exact .inl hjn
  case record hf ht hr hw =>
    refine h.goto hi ht (by rw [hf.ledger]; rfl) hf.calls nofun nofun fun j n r' hjn => ?_
    rw [hr] at hjn
    obtain ⟨hj, hn, hr'⟩ | hjn := finish_results hjn
    · exact .inr ⟨hj, hn, rfl, fun _ => h.recorded i hw, fun _ => hr'⟩
    · exact .inl hjn
  case spawn r p hf ht hr hw hrec =>
    refine h.goto hi ht (by rw [hf.ledger]; rfl) hf.calls (fun _ => hw ▸ rfl) (fun hp => ?_)
      fun j n r hjn => ?_
    · cases hrec.symm.trans hp
    · exact .inl (hr ▸ hjn)
  case sendOp c x p hf ht hr _ hsends hcall hu _ =>
    refine h.send hi ht hf.ledger hf.calls hr (fun a ha => ?_) hu fun _ => ⟨x, rfl⟩
    exact ⟨(Option.some.inj ha).symm.trans hcall, Phase.isUnsent_of_sends hsends⟩
  case sendFlush c p hf ht hr _ hw hu hrec =>
    refine h.send hi ht hf.ledger hf.calls hr (fun a ha => ?_) hu fun hp => ?_
    · exact ⟨(Option.some.inj ha).symm, hw⟩
    · cases hrec.symm.trans hp
  case sendShutdown c p hf ht hr _ _ hu hrec =>
    refine h.send hi ht hf.ledger hf.calls hr nofun hu fun hp => ?_
    cases hrec.symm.trans hp

theorem call_eq (h : s.call i p = some s') : s.threads i = .idle ∧
    s' = { s with calls := Function.update s.calls i (s.calls i + 1) }.goto i p := by
  unfold call at h
  split at h <;> cases h
  case h_1 hi => exact ⟨hi, rfl⟩

-- A thread starts its next call.
theorem Numbered.call (h : s.Numbered) (hp : p.isRecord = false) (hs : s.call i p = some s') :
    s'.Numbered := by
  obtain ⟨hi, rfl⟩ := call_eq hs
  have hle (j : ι) : s.calls j ≤ Function.update s.calls i (s.calls i + 1) j :=
    (Function.forall_update_iff s.calls fun j n => s.calls j ≤ n).mpr
      ⟨Nat.le_succ _, fun _ _ => Nat.le_refl _⟩ j
  refine ⟨h.ordered, fun a ha => (h.bounded a ha).trans (hle _), fun j hj hm => ?_, ?_,
    fun j n r hjn => ⟨?_, (h.returned j n r hjn).right⟩⟩
  · by_cases hji : j = i
    case pos =>
      have hb := h.bounded _ hm
      simp only [System.goto, hji, Function.update_self] at hb
      omega
    case neg =>
      simp only [System.goto, Function.update_of_ne hji] at hj hm
      exact h.unsent j hj hm
  · refine (Function.forall_update_iff s.threads fun j p => p.isRecord →
      ⟨j, Function.update s.calls i (s.calls i + 1) j⟩ ∈ s.ledger.accepted.map Envelope.call).mpr
        ⟨fun hp' => ?_, fun j hji hj => ?_⟩
    · cases hp.symm.trans hp'
    · rw [Function.update_of_ne hji]
      exact h.recorded j hj
  · have hn := (h.returned j n r hjn).left
    by_cases hji : j = i
    case pos =>
      subst hji
      simp only [System.goto, Function.update_self]
      omega
    case neg => simpa only [System.goto, Function.update_of_ne hji] using hn

end System
end WriteBehind
