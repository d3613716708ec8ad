import AgentMail.BuildSlots.Interleaved

open Pattern (Str)

namespace BuildSlots

variable {ι : Type}

namespace BuildSlotLease

variable {lease : BuildSlotLease} {now now' : Int}

theorem unexpired_of_le (hle : now ≤ now') (hu : lease.unexpired now') : lease.unexpired now := by
  rw [unexpired, Bool.and_eq_true, decide_eq_true_iff] at hu ⊢
  exact ⟨hu.left, hle.trans_lt hu.right⟩

end BuildSlotLease

namespace Published

variable {p p' q : Published ι}

def Lists (p q : Published ι) : Prop :=
  ∃ c ∈ p.conflicts, c.1 = q.grant ∧ c.2.agent = q.lease.agent

-- One of two leases has been granted with the other one in sight, or they do not exclude each
-- other.
inductive Fine (p q : Published ι) : Prop
  | lists (h : p.Lists q)
  | listed (h : q.Lists p)
  | shared (h : ¬p.lease.exclusive ∧ ¬q.lease.exclusive)
  | released (h : p.lease.releasedTs ≠ none ∨ q.lease.releasedTs ≠ none)
  | expired (h : ¬p.lease.unexpired q.time ∨ ¬q.lease.unexpired p.time)

theorem Fine.symm : p.Fine q → q.Fine p
  | lists h    => listed h
  | listed h   => lists h
  | shared h   => shared h.symm
  | released h => released h.symm
  | expired h  => expired h.symm

-- A renewal keeps two leases apart that were so when it read the clock.
theorem Fine.renew {now : Int} {extendSeconds : Option Int} (hf : p.Fine q)
    (hr : p.lease.releasedTs = none) (hu : p.lease.unexpired now) (hq : q.time ≤ now) :
    Fine { p with lease := renewedLease p.lease now extendSeconds, time := max p.time now } q := by
  cases hf
  case lists h  => exact lists h
  case listed h => exact listed h
  case shared h => exact shared h
  case released h =>
    obtain h | h := h
    · exact absurd hr h
    · exact released (.inr h)
  case expired h =>
    obtain h | h := h
    · exact absurd (BuildSlotLease.unexpired_of_le hq hu) h
    · exact expired (.inr fun hm => h (BuildSlotLease.unexpired_of_le (le_max_left _ _) hm))

end Published

def Phase.reply? : Phase ι → Option (Reply ι)
  | list | read .. => none
  | publish plan _ => some plan.reply
  | answer reply   => some reply
  | returned reply => some reply

-- The leases that a call has read or is about to write.
def Phase.holds : Phase ι → List (Published ι)
  | read _ entries        => entries
  | publish plan _        => [plan.target]
  | list                  => []
  | answer _ | returned _ => []

-- What a call that has not been disturbed knows of a lease of another agent.
def Thread.Ready (t : Thread ι) (f : Str × Published ι) : Prop :=
  match t.phase with
  | .list                 => ∀ extendSeconds, t.request = .renew extendSeconds → f.2.time ≤ t.now
  | .read paths entries   =>
    (∀ slot ttlSeconds exclusive, t.request = .acquire slot ttlSeconds exclusive → f.1 ∈ paths ∨
      f.2 ∈ entries) ∧
    ∀ extendSeconds, t.request = .renew extendSeconds →
      f.2.time ≤ t.now ∧ ∀ p ∈ entries, p.lease.agent = t.agent → p.Fine f.2
  | .publish plan _       => plan.target.Fine f.2
  | .answer _             => True
  | .returned _           => True

variable [DecidableEq ι]

structure World.Known (w : World ι) (p : Published ι) : Prop where
  time   : p.time ≤ w.clock
  answer : ∃ t granted, w.threads.get? p.grant = some t ∧
    t.phase.reply? = some (.acquire granted p.conflicts)

structure Thread.Valid (w : World ι) (t : Thread ι) : Prop where
  now   : t.now ≤ w.clock
  known : ∀ p ∈ t.phase.holds, w.Known p
  own   : ∀ plan stage, t.phase = .publish plan stage →
    plan.target.lease.agent = t.agent ∧ (t.request.publishes ∨ plan.target.lease.releasedTs ≠ none)
  ready : ¬t.disturbed → ∀ f ∈ w.files.rows, f.2.lease.agent ≠ t.agent →
    f.2.lease.releasedTs = none → t.Ready f

namespace World

structure Sound (w : World ι) : Prop where
  fine  : ∀ f ∈ w.files.rows, ∀ g ∈ w.files.rows, f.2.lease.agent ≠ g.2.lease.agent → f.2.Fine g.2
  known : ∀ f ∈ w.files.rows, w.Known f.2
  valid : ∀ t ∈ w.threads.rows, t.Valid w

-- Time passes, and what a call is going to return stays.
structure Extends (w w' : World ι) : Prop where
  clock : w.clock ≤ w'.clock
  reply : ∀ id t, w.threads.get? id = some t → ∀ reply, t.phase.reply? = some reply →
    ∃ t', w'.threads.get? id = some t' ∧ t'.phase.reply? = some reply

end World

variable {w w' : World ι} {t : Thread ι} {p : Published ι} {phase : Phase ι} {id : ι} {path : Str}

theorem World.Known.extend (hk : w.Known p) (he : w.Extends w') : w'.Known p where
  time   := hk.time.trans he.clock
  answer := by
    have ⟨t, granted, ht, hr⟩ := hk.answer
    have ⟨t', ht', hr'⟩ := he.reply _ t ht _ hr
    exact ⟨t', granted, ht', hr'⟩

theorem Thread.Valid.extend (hv : t.Valid w) (he : w.Extends w') (hf : w'.files = w.files) :
    t.Valid w' where
  now   := hv.now.trans he.clock
  known := fun p hp => (hv.known p hp).extend he
  own   := hv.own
  ready := hf ▸ hv.ready

namespace World

theorem get?_enter (ht : w.threads.get? id = some t) :
    (w.enter id phase).threads.get? id = some (t.enter phase) := by
  have hid := (Table.get?_eq_some_iff.mp ht).right
  rw [enter, Table.get?_update, ht, Option.map_some, if_pos (by simp [hid])]

theorem extends_enter (ht : w.threads.get? id = some t)
    (hr : ∀ reply, t.phase.reply? = some reply → phase.reply? = some reply) :
    w.Extends (w.enter id phase) where
  clock := le_rfl
  reply := by
    intro id' u hu reply hreply
    by_cases hid : id' = id
    case pos =>
      rw [hid, ht] at hu
      cases hu
      refine ⟨t.enter phase, ?_, hr reply hreply⟩
      rw [hid]
      exact get?_enter ht
    case neg =>
      have hne : u.id ≠ id := (Table.get?_eq_some_iff.mp hu).right ▸ hid
      refine ⟨u, ?_, hreply⟩
      rw [enter, Table.get?_update, hu, Option.map_some, if_neg (by simpa using hne)]

-- It is enough to look at the call that takes a step if no file changes.
theorem Sound.enter (hs : w.Sound) (ht : w.threads.get? id = some t)
    (hr : ∀ reply, t.phase.reply? = some reply → phase.reply? = some reply)
    (hv : (t.enter phase).Valid (w.enter id phase)) : (w.enter id phase).Sound := by
  have he := extends_enter ht hr
  constructor
  case fine  => exact hs.fine
  case known => exact fun f hf => (hs.known f hf).extend he
  case valid =>
    intro u hu
    have ⟨u', hu', hue⟩ := List.mem_map.mp hu
    by_cases hid : u'.id = id
    case pos =>
      have heq : u' = t := Option.some.inj <| (hid ▸ Table.get?_key hu').symm.trans ht
      rw [if_pos (by simpa using hid)] at hue
      rw [← hue, heq]
      exact hv
    case neg =>
      rw [if_neg (by simpa using hid)] at hue
      rw [← hue]
      exact (hs.valid u' hu').extend he rfl

end World

end BuildSlots
