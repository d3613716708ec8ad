import AgentMail.WriteBehind.Theorems.Channel

namespace WriteBehind

variable {ι ω : Type}

namespace Channel

variable {ch ch' : Channel ι ω} {l l' : Ledger ι ω} {senders : Nat} {critical : Bool}

theorem not_isFinished_of_step (h : ch.step l senders critical = some (ch', l')) :
    ch.drain.isFinished = false := by
  cases hd : ch.drain <;> first | rfl | simp only [step, hd] at h; cases h

theorem Effect.sent_eq (h : ch.Effect l ch' l') : l'.sent = l.sent := by
  cases h <;> rfl

-- The queue is dropped with the receiver.
theorem Effect.queue_eq_nil (h : ch.Effect l ch' l') (hf : ch'.drain.isFinished) :
    ch'.queue = [] := by
  cases h
  case drop hq _ _ _ => exact hq
  all_goals cases ‹ch'.drain.isFinished = false›.symm.trans hf

end Channel

namespace Phase

variable {p : Phase ω} {c : Nat}

-- The thread has found that there is no drain thread, and it has not stored a new one.
def isSpawning : Phase ω → Bool
  | spawn _      => true
  | publish _ _  => true
  | register _ _ => true
  | _            => false

theorem isCritical_of_isSpawning (h : p.isSpawning) : p.isCritical := by
  cases p <;> first | rfl | cases h

theorem isCritical_of_keeps (h : p.keeps = some c) : p.isCritical := by
  cases p <;> first | rfl | cases h

theorem not_isRecord_of_isUnsent (h : p.isUnsent) : p.isRecord = false := by
  cases p <;> first | rfl | cases h

theorem isUnsent_of_sends (h : p.sends = some c) : p.isUnsent := by
  cases p <;> first | rfl | cases h

theorem afterStart_eq (r : Option (Request ω)) :
    (afterStart r).isCritical = false ∧ (afterStart r).isSpawning = false ∧
      (afterStart r).isRecord = false := by
  cases r <;> exact ⟨rfl, rfl, rfl⟩

end Phase

namespace System

variable {s s' : System ι ω} {i : ι} {p p' : Phase ω} {c : Nat} {expired : Bool} {m : Msg ι ω}

-- The drain thread of the last channel is the only one that can be running, and either its handle
-- is stored, or the thread that holds the lock has it.
structure Inv (s : System ι ω) : Prop where
  locked   : ∀ i, (s.threads i).isCritical → s.lifecycle = some i
  spawning : ∀ i, (s.threads i).isSpawning → s.drainHandle = none
  alive    : ∀ c, (s.channels c).drain.isFinished = false → c + 1 = s.spawned ∧
    (s.drainHandle = some c ∨ ∃ i, (s.threads i).keeps = some c)
  closed   : ∀ c, (s.channels c).drain.isFinished → (s.channels c).queue = []

theorem init_inv : (init : System ι ω).Inv where
  locked   := nofun
  spawning := nofun
  alive    := nofun
  closed   := fun _ _ => rfl

theorem Inv.eq_of_isCritical (h : s.Inv) {j : ι} (hi : (s.threads i).isCritical)
    (hj : (s.threads j).isCritical) : j = i :=
  Option.some.inj ((h.locked j hj).symm.trans (h.locked i hi))

theorem Inv.current_eq (h : s.Inv) (hc : (s.channels c).drain.isFinished = false) :
    s.spawned - 1 = c := by
  have he := (h.alive c hc).left
  omega

theorem Inv.finished_of_spawn (h : s.Inv) {r : Option (Request ω)} (hi : s.threads i = .spawn r) :
    (s.channels c).drain.isFinished := by
  by_contra hn
  obtain hd | ⟨j, hj⟩ := (h.alive c (Bool.eq_false_iff.mpr hn)).right
  · cases (h.spawning i (hi ▸ rfl)).symm.trans hd
  · have hji := h.eq_of_isCritical (i := i) (hi ▸ rfl) (Phase.isCritical_of_keeps hj)
    rw [hji, hi] at hj
    cases hj

theorem Inv.setChannel (h : s.Inv) {ch : Channel ι ω} (hf : (s.channels c).drain.isFinished = false)
    (hq : ch.drain.isFinished → ch.queue = []) : (s.setChannel c ch).Inv where
  locked   := h.locked
  spawning := h.spawning
  alive c' hc' := by
    by_cases he : c' = c
    case pos => exact he ▸ h.alive c hf
    case neg =>
      simp only [System.setChannel, Function.update_of_ne he] at hc'
      exact h.alive c' hc'
  closed c' := by
    by_cases he : c' = c
    case pos =>
      subst he
      simpa only [System.setChannel, Function.update_self] using hq
    case neg =>
      simpa only [System.setChannel, Function.update_of_ne he] using h.closed c'

theorem Inv.push (h : s.Inv) (hf : (s.channels c).drain.isFinished = false) : (s.push c m).Inv := by
  have hi : (s.setChannel c ((s.channels c).push m)).Inv :=
    h.setChannel hf fun hf' => by cases hf.symm.trans hf'
  exact ⟨hi.locked, hi.spawning, hi.alive, hi.closed⟩

theorem setSender_eq (s : System ι ω) (sender : Option Nat) :
    ∃ senders, s.setSender sender = { s with senders, sender } := by
  unfold setSender
  split <;> exact ⟨_, rfl⟩

variable [DecidableEq ι]

-- A thread goes on. It changes the lock only if it holds it or takes it, and it puts a handle back
-- or keeps it.
theorem Inv.goto (h : s.Inv) (hi : s.threads i = p)
    (ht : s'.threads = Function.update s.threads i p') (hc : s'.channels = s.channels)
    (hn : s'.spawned = s.spawned)
    (hl : s'.lifecycle = s.lifecycle ∨ s.lifecycle = none ∨ p.isCritical)
    (hp : p'.isCritical → s'.lifecycle = some i)
    (hd : s'.drainHandle = s.drainHandle ∨ s'.drainHandle = none ∨ p.isCritical)
    (hs : p'.isSpawning → s'.drainHandle = none)
    (hk : ∀ c, (s.channels c).drain.isFinished = false → s.drainHandle = some c ∨ p.keeps = some c →
      s'.drainHandle = some c ∨ p'.keeps = some c) : s'.Inv := by
  refine ⟨?_, ?_, fun c hf => ?_, hc ▸ h.closed⟩
  · rw [ht]
    refine (Function.forall_update_iff s.threads fun j p => p.isCritical →
      s'.lifecycle = some j).mpr
      ⟨hp, fun j hji hj => ?_⟩
    have hlj := h.locked j hj
    obtain hl | hl | hl := hl
    · exact hl.trans hlj
    · cases hl.symm.trans hlj
    · exact absurd (h.eq_of_isCritical (hi ▸ hl) hj) hji
  · rw [ht]
    refine (Function.forall_update_iff s.threads fun _ p => p.isSpawning →
      s'.drainHandle = none).mpr
      ⟨hs, fun j hji hj => ?_⟩
    obtain hd | hd | hd := hd
    · exact hd.trans (h.spawning j hj)
    · exact hd
    · exact absurd (h.eq_of_isCritical (hi ▸ hd) (Phase.isCritical_of_isSpawning hj)) hji
  · rw [hc] at hf
    have ⟨he, ha⟩ := h.alive c hf
    refine ⟨he.trans hn.symm, ?_⟩
    have hown (ho : s.drainHandle = some c ∨ p.keeps = some c) :
        s'.drainHandle = some c ∨ ∃ j, (s'.threads j).keeps = some c :=
      (hk c hf ho).imp_right fun hk => ⟨i, by rwa [ht, Function.update_self]⟩
    obtain ha | ⟨j, hj⟩ := ha
    · exact hown (.inl ha)
    · by_cases hji : j = i
      case pos => exact hown (.inr (hi ▸ hji ▸ hj))
      case neg => exact .inr ⟨j, by rwa [ht, Function.update_of_ne hji]⟩

-- A thread goes on that has no handle and leaves the lock and the handle as they are.
theorem Inv.pass (h : s.Inv) (hi : s.threads i = p)
    (ht : s'.threads = Function.update s.threads i p') (hc : s'.channels = s.channels)
    (hn : s'.spawned = s.spawned) (hl : s'.lifecycle = s.lifecycle)
    (hd : s'.drainHandle = s.drainHandle) (hp : p'.isCritical → p.isCritical)
    (hs : p'.isSpawning → p.isSpawning) (hk : p'.keeps = p.keeps) : s'.Inv :=
  h.goto hi ht hc hn (.inl hl) (fun hp' => hl.trans (h.locked i (hi ▸ hp hp'))) (.inl hd)
    (fun hs' => hd.trans (h.spawning i (hi ▸ hs hs'))) fun _ _ ho => by rwa [hd, hk]

theorem Inv.addChannel (h : s.Inv) {r : Option (Request ω)} (hi : s.threads i = .spawn r) :
    (s.addChannel.goto i (.publish r s.spawned)).Inv where
  locked j hj := by
    by_cases hji : j = i
    case pos => exact hji ▸ h.locked i (hi ▸ rfl)
    case neg =>
      simp only [System.goto, Function.update_of_ne hji] at hj
      exact h.locked j hj
  spawning j _ := h.spawning i (hi ▸ rfl)
  alive c hc := by
    simp only [System.addChannel, System.goto, System.setChannel] at hc ⊢
    by_cases he : c = s.spawned
    case pos => exact ⟨he ▸ rfl, .inr ⟨i, by rw [Function.update_self, he]; rfl⟩⟩
    case neg =>
      rw [Function.update_of_ne he, h.finished_of_spawn hi] at hc
      cases hc
  closed c := by
    simp only [System.addChannel, System.goto, System.setChannel]
    by_cases he : c = s.spawned
    case pos =>
      rw [he, Function.update_self]
      exact fun _ => rfl
    case neg =>
      rw [Function.update_of_ne he]
      exact h.closed c

theorem lock_eq (h : s.lock i p = some s') :
    s.lifecycle = none ∧ s' = { s with lifecycle := some i }.goto i p := by
  unfold lock at h
  split at h <;> cases h
  case h_1 hl => exact ⟨hl, rfl⟩

theorem Inv.lock (h : s.Inv) (hi : s.threads i = p) (hk : p.keeps = none)
    (hs' : p'.isSpawning = false) (hs : s.lock i p' = some s') : s'.Inv := by
  have ⟨hl, hs⟩ := lock_eq hs
  refine hs ▸ h.goto hi rfl rfl rfl (.inr (.inl hl)) (fun _ => rfl) (.inl rfl) ?_ fun c _ ho => ?_
  · intro ht
    cases hs'.symm.trans ht
  · rw [hk] at ho
    exact .inl (ho.resolve_right nofun)

theorem Inv.unlock (h : s.Inv) (hi : s.threads i = p)
    (ht : s'.threads = Function.update s.threads i p') (hc : s'.channels = s.channels)
    (hn : s'.spawned = s.spawned) (hd : s'.drainHandle = s.drainHandle) (hp : p.isCritical)
    (hp' : p'.isCritical = false) (hs : p'.isSpawning = false)
    (hk : ∀ c, p.keeps = some c → (s.channels c).drain.isFinished) : s'.Inv := by
  refine h.goto hi ht hc hn (.inr (.inr hp)) ?_ (.inl hd) ?_ fun c hf ho => ?_
  · intro ht
    cases hp'.symm.trans ht
  · intro ht
    cases hs.symm.trans ht
  · obtain ho | ho := ho
    · exact .inl (hd.trans ho)
    · cases hf.symm.trans (hk c ho)

theorem Inv.advance (h : s.Inv) (hi : s.threads i = p) (hs : s.advance i expired p = some s') :
    s'.Inv := by
  cases p <;> simp only [System.advance] at hs
  case idle => cases hs
  case lock r => exact h.lock hi rfl rfl hs
  case check r =>
    have hl := h.locked i (hi ▸ rfl)
    split at hs
    case h_1 hd =>
      cases hs
      exact h.goto hi rfl rfl rfl (.inl rfl) (fun _ => hl) (.inl rfl) (fun _ => hd)
        fun _ _ ho => .inl (ho.resolve_right nofun)
    case h_2 c hd =>
      split at hs <;> cases hs
      case isTrue hf =>
        refine h.goto hi rfl rfl rfl (.inl rfl) (fun _ => hl) (.inr (.inl rfl)) (fun _ => rfl) ?_
        intro c' hf' ho
        obtain rfl := Option.some.inj (hd.symm.trans (ho.resolve_right nofun))
        cases hf.symm.trans hf'
      case isFalse =>
        have ⟨hc, hsp, _⟩ := Phase.afterStart_eq r
        exact h.unlock hi rfl rfl rfl rfl rfl hc hsp nofun
  case spawn r =>
    cases hs
    exact h.addChannel hi
  case publish r c =>
    have ⟨n, hn⟩ := s.setSender_eq (some c)
    rw [hn] at hs
    cases hs
    exact h.pass hi rfl rfl rfl rfl rfl id id rfl
  case register r c =>
    cases hs
    have ⟨hc, hsp, _⟩ := Phase.afterStart_eq r
    refine h.goto hi rfl rfl rfl (.inr (.inr rfl)) (fun hp => ?_) (.inr (.inr rfl)) (fun hp => ?_)
      fun c' hf ho => ?_
    · cases hc.symm.trans hp
    · cases hsp.symm.trans hp
    · obtain ho | ho := ho
      · cases (h.spawning i (hi ▸ rfl)).symm.trans ho
      · exact .inl ho
  case clone r =>
    split at hs
    case h_1 =>
      cases hs
      exact h.pass hi rfl rfl rfl rfl rfl nofun nofun rfl
    case h_2 =>
      split at hs <;> cases hs <;> exact h.pass hi rfl rfl rfl rfl rfl nofun nofun rfl
  case send c op retrying =>
    split at hs
    case isTrue =>
      cases hs
      exact h.pass hi rfl rfl rfl rfl rfl nofun nofun rfl
    case isFalse hf =>
      split at hs
      case isTrue =>
        cases hs
        exact (h.push (Bool.eq_false_iff.mpr hf)).pass hi rfl rfl rfl rfl rfl nofun nofun rfl
      case isFalse =>
        split at hs <;> cases hs <;> exact h.pass hi rfl rfl rfl rfl rfl nofun nofun rfl
  case record c =>
    cases hs
    exact h.pass hi rfl rfl rfl rfl rfl nofun nofun rfl
  case flushClone stop =>
    split at hs <;> cases hs
    case h_1 =>
      cases stop
      case false => exact h.pass hi rfl rfl rfl rfl rfl nofun nofun rfl
      case true  => exact h.pass hi rfl rfl rfl rfl rfl id nofun rfl
    case h_2 => exact h.pass hi rfl rfl rfl rfl rfl id nofun rfl
  case flushSend stop c =>
    split at hs
    case isTrue =>
      cases stop <;> cases hs
      case false => exact h.pass hi rfl rfl rfl rfl rfl nofun nofun rfl
      case true  => exact h.pass hi rfl rfl rfl rfl rfl id nofun rfl
    case isFalse hf =>
      split at hs <;> cases hs
      case isTrue =>
        exact (h.push (Bool.eq_false_iff.mpr hf)).pass hi rfl rfl rfl rfl rfl id nofun rfl
  case flushWait stop c =>
    split at hs
    case isTrue =>
      cases stop <;> cases hs
      case false => exact h.pass hi rfl rfl rfl rfl rfl nofun nofun rfl
      case true  => exact h.pass hi rfl rfl rfl rfl rfl id nofun rfl
    case isFalse => cases hs
  case stopLock => exact h.lock hi rfl rfl hs
  case stopSend c =>
    split at hs
    case isTrue =>
      cases hs
      exact h.pass hi rfl rfl rfl rfl rfl id nofun rfl
    case isFalse hf =>
      split at hs <;> cases hs
      case isTrue =>
        exact (h.push (Bool.eq_false_iff.mpr hf)).pass hi rfl rfl rfl rfl rfl id nofun rfl
  case stopClear =>
    have ⟨n, hn⟩ := s.setSender_eq none
    rw [hn] at hs
    cases hs
    exact h.pass hi rfl rfl rfl rfl rfl id nofun rfl
  case stopTake =>
    have hl := h.locked i (hi ▸ rfl)
    split at hs <;> cases hs
    case h_1 => exact h.unlock hi rfl rfl rfl rfl rfl rfl rfl nofun
    case h_2 c hd =>
      refine h.goto hi rfl rfl rfl (.inl rfl) (fun _ => hl) (.inr (.inl rfl)) (fun _ => rfl) ?_
      exact fun _ _ ho => .inr (hd.symm.trans (ho.resolve_right nofun))
  case stopJoin c =>
    split at hs <;> cases hs
    case isTrue hf =>
      refine h.unlock hi rfl rfl rfl rfl rfl rfl rfl fun c' hk => ?_
      exact Option.some.inj hk ▸ hf

end System
end WriteBehind
