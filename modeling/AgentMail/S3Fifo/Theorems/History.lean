import AgentMail.S3Fifo.Theorems.Run

open Function (update)

namespace S3Fifo

variable {κ υ : Type} [DecidableEq κ]

-- What the history of a key says about its node: the value that is cached is the last one written,
-- and an entry in Small that has been accessed has a positive frequency.
structure Agrees (o : Option (Node υ)) (lastWrite : Option υ) (accessed : Bool) : Prop where
  value : ∀ v, o.bind Node.value? = some v → lastWrite = some v
  freq  : ∀ v f s, o = some (.small v f s) → accessed → f ≥ 1

namespace Agrees

variable {o o' : Option (Node υ)} {w : Option υ} {a : Bool} {n : Node υ} {v : υ}

theorem none (w : Option υ) (a : Bool) : Agrees none w a where
  value := nofun
  freq  := nofun

theorem hit (hv : n.value? = some v) (write : υ → υ) (a : Bool) :
    Agrees (some <| n.hit write) (some <| write v) a := by
  constructor
  case value => cases n <;> simp_all [Node.hit, Node.value?]
  case freq =>
    cases n <;> simp only [Node.hit, Option.some.injEq, Node.small.injEq,
      reduceCtorEq, false_implies, implies_true]
    rintro _ f _ ⟨_, rfl, _⟩ _
    exact Nat.le_min.mpr ⟨Nat.le_add_left .., by decide⟩

theorem fresh (hv : n.value? = some v) : Agrees (some n) (some v) false where
  value _ hw := hv ▸ hw
  freq := nofun

-- Evictions only forget.
theorem fate {mainCapacity : Nat} (h : Agrees o w a) (hf : S3FifoCache.Fate mainCapacity o o') :
    Agrees o' w a := by
  cases hf
  case keep       => exact h
  case requeue    => exact ⟨h.value, nofun⟩
  case evictMain  => exact .none w a
  case evictGhost => exact .none w a
  case promote    => exact ⟨h.value, nofun⟩
  case demote     => exact ⟨nofun, nofun⟩

end Agrees

namespace S3FifoCache

variable {c c' : S3FifoCache κ υ} {h : History κ υ} {key : κ}

-- A cache is a lossy version of its history.
def Refines (c : S3FifoCache κ υ) (h : History κ υ) : Prop :=
  ∀ k, Agrees (c.index k) (h.lastWrite k) (h.accessed k)

namespace Refines

theorem update {o : Option (Node υ)} {w : Option υ} {a : Bool} (hr : c.Refines h)
    (hi : c'.index = Function.update c.index key o) (ho : Agrees o w a) :
    c'.Refines ⟨Function.update h.lastWrite key w, Function.update h.accessed key a⟩ := by
  intro k
  by_cases hk : k = key
  case pos => simpa [hi, hk] using ho
  case neg => simpa [hi, hk] using hr k

theorem insert {v : υ} (hr : c.Refines h) (hi : Inserts key v c c') :
    c'.Refines (h.record c (.insert key v)) := by
  cases hi
  case hit n hn hv hi =>
    have ⟨w, hw⟩ := Option.isSome_iff_exists.mp hv
    exact hr.update hi <| .hit hw (fun _ => v) _
  case miss n hp hn hv hf hfate =>
    have hc : c.containsKey key = false := by simp [containsKey, hp]
    intro k
    by_cases hk : k = key
    case pos => simpa [History.record, hk, hn, hc] using .fresh hv
    case neg => simpa [History.record, hk] using (hr k).fate (hfate k hk)

theorem getMut (hr : c.Refines h) (key : κ) (write : υ → υ) :
    (c.getMut key write).snd.Refines (h.record c (.getMut key write)) := by
  cases hp : c.peek key
  case none => simpa [getMut_miss hp, History.record, hp] using hr
  case some v =>
    have ⟨n, _, hv, he⟩ := getMut_hit hp write
    simpa [he, History.record, hp] using hr.update rfl (.hit hv write true)

theorem get (hr : c.Refines h) (key : κ) : (c.get key).snd.Refines (h.record c (.get key)) := by
  have hu := hr.getMut key id
  intro k
  have hk := hu k
  cases hp : c.peek key
  case none   => simpa [S3FifoCache.get, History.record, hp, containsKey] using hk
  case some v =>
    by_cases he : k = key
    case neg => simpa [S3FifoCache.get, History.record, hp, he] using hk
    case pos =>
      have hv := (hr key).value v hp
      simpa [S3FifoCache.get, History.record, hp, containsKey, he, hv] using hk

-- The step lemma: a call keeps the cache a lossy version of the history.
theorem exec (hq : c.Quiescent) (hr : c.Refines h) (op : Op κ υ) :
    ∃ r c', op.exec c = some (r, c') ∧ c'.Quiescent ∧ SameCapacity c c' ∧
      c'.Refines (h.record c op) := by
  obtain ⟨r, c', he, hq', hc⟩ := exec_spec hq op
  refine ⟨r, c', he, hq', hc, ?_⟩
  cases op
  case insert key v =>
    obtain ⟨c₁, hi, _, _, hs⟩ := insert_spec hq key v
    have hc : c₁ = c' := by simp_all [Op.exec]
    exact hr.insert (hc ▸ hs)
  case get key =>
    have hc : (c.get key).snd = c' := by simp_all [Op.exec]
    exact hc ▸ hr.get key
  case getMut key write =>
    have hc : (c.getMut key write).snd = c' := by simp_all [Op.exec]
    exact hc ▸ hr.getMut key write
  case peek key =>
    have hc : c = c' := by simp_all [Op.exec]
    exact hc ▸ hr
  case remove key =>
    obtain ⟨c₁, hi, _, _, hs⟩ := remove_spec hq key
    have hc : c₁ = c' := by simp_all [Op.exec]
    exact hc ▸ hr.update hs (.none _ _)
  case clear =>
    have hc : c.clear = c' := by simp_all [Op.exec]
    exact hc ▸ fun _ => .none _ _

end Refines

theorem runHistory_spec (hq : c.Quiescent) (hr : c.Refines h) (ops : List (Op κ υ)) :
    ∃ c' h', c.runHistory h ops = some (c', h') ∧ c'.Quiescent ∧ SameCapacity c c' ∧
      c'.Refines h' := by
  induction ops generalizing c h
  case nil => exact ⟨c, h, rfl, hq, ⟨rfl, rfl, rfl⟩, hr⟩
  case cons op ops hi =>
    have ⟨r, c₁, he, hq, hc, hr⟩ := hr.exec hq op
    have ⟨c₂, h₂, he', hq, hc', hr⟩ := hi hq hr
    exact ⟨c₂, h₂, by simpa [runHistory, he] using he', hq, hc.trans hc', hr⟩

-- The history is only an observer.
theorem runHistory_map_fst (c : S3FifoCache κ υ) (h : History κ υ) (ops : List (Op κ υ)) :
    (c.runHistory h ops).map Prod.fst = c.run ops := by
  induction ops generalizing c h
  case nil => rfl
  case cons op ops hi =>
    cases he : op.exec c
    case none   => simp [runHistory, run, he]
    case some r => simpa [runHistory, run, he] using hi r.2 (h.record c op)

-- What callers can rely on in a cache with the given history.
structure LossyMap (c : S3FifoCache κ υ) (h : History κ υ) : Prop where
  peek   : ∀ k v, c.peek k = some v → h.lastWrite k = some v
  get    : ∀ k v, (c.get k).fst = some v → h.lastWrite k = some v
  getMut : ∀ k write v, (c.getMut k write).fst = some v → h.lastWrite k = some v
  remove : ∀ k v c', c.remove k = some (some v, c') → h.lastWrite k = some v
  insert : ∀ k v, ∃ c', c.insert k v = some c' ∧ c'.peek k = some v
  -- An entry in Small that was accessed is never lost to an eviction.
  accessed : 0 < c.mainCapacity → ∀ k v c', c.insert k v = some c' →
    ∀ k' w f s, c.index k' = some (.small w f s) → h.accessed k' →
      if k' = k then ∃ f', c'.index k' = some (.small v f' s)
      else c'.index k' = some (.small w f s) ∨ ∃ s', c'.index k' = some (.main w 0 s')

omit [DecidableEq κ] in
theorem Fate.of_small {mainCapacity : Nat} {o : Option (Node υ)} {w : υ} {f s : Nat}
    (h : Fate mainCapacity (some <| .small w f s) o) (hc : 0 < mainCapacity) (hf : f ≥ 1) :
    o = some (.small w f s) ∨ ∃ s', o = some (.main w 0 s') := by
  cases h
  case keep         => exact .inl rfl
  case promote s' _ => exact .inr ⟨s', rfl⟩
  case demote hz    => omega

theorem getMut_fst (c : S3FifoCache κ υ) (key : κ) (write : υ → υ) :
    (c.getMut key write).fst = c.peek key := by
  cases hp : c.peek key
  case none => rw [getMut_miss hp]
  case some v =>
    have ⟨_, _, _, he⟩ := getMut_hit hp write
    rw [he]

theorem Refines.lossyMap (hq : c.Quiescent) (hr : c.Refines h) : c.LossyMap h where
  peek k v     := (hr k).value v
  get k v      := getMut_fst c k id ▸ (hr k).value v
  getMut k w v := getMut_fst c k w ▸ (hr k).value v
  remove k v c' hc := by
    have ⟨c₁, he, _⟩ := remove_spec hq k
    have hv : c.peek k = some v := by simp_all
    exact (hr k).value v hv
  insert k v := by
    have ⟨c', he, _, _, hi⟩ := insert_spec hq k v
    refine ⟨c', he, ?_⟩
    cases hi
    case hit n hn hv hi     => cases n <;> simp_all [S3FifoCache.peek, Node.hit, Node.value?]
    case miss n _ hn hv _ _ => simpa [S3FifoCache.peek, hn] using hv
  accessed hc k v c' he k' w f s hk' ha := by
    have hf : f ≥ 1 := (hr k').freq w f s hk' ha
    have ⟨c₁, he', _, _, hi⟩ := insert_spec hq k v
    cases he.symm.trans he'
    cases hi
    case hit n hn hv hi =>
      by_cases hk : k' = k
      case pos =>
        cases hk
        cases hn.symm.trans hk'
        exact (if_pos rfl).mpr ⟨min (f + 1) 3, by simp [hi, Node.hit]⟩
      case neg => simp [hk, hi, hk']
    case miss n hp hn hv hz hfate =>
      have hk : k' ≠ k := by
        rintro rfl
        simp [S3FifoCache.peek, hk', Node.value?] at hp
      simpa [hk] using (hk' ▸ hfate k' hk).of_small hc hf

theorem runHistory_lossyMap {capacity : Nat} (h : 0 < capacity) (ops : List (Op κ υ)) :
    ∃ c₀ c hist, new capacity = some c₀ ∧ run c₀ ops = some c ∧
      runHistory c₀ .empty ops = some (c, hist) ∧ c.LossyMap hist := by
  have ⟨c₀, hn, hq, _, hi⟩ := new_quiescent (κ := κ) (υ := υ) h
  have hr : c₀.Refines .empty := fun k => hi ▸ .none _ _
  have ⟨c, hist, he, hq, _, hr⟩ := runHistory_spec hq hr ops
  refine ⟨c₀, c, hist, hn, ?_, he, hr.lossyMap hq⟩
  rw [← runHistory_map_fst c₀ .empty, he]
  rfl

theorem runHistory_lossyMap_two :
    0 < 2 ∧ ∃ c₀ c hist, new 2 = some c₀ ∧
      run c₀ [Op.insert 7 'a', .get 7, .insert 8 'b', .getMut 7 fun _ => 'c'] = some c ∧
      runHistory c₀ .empty [Op.insert 7 'a', .get 7, .insert 8 'b', .getMut 7 fun _ => 'c'] =
        some (c, hist) ∧ c.LossyMap hist :=
  ⟨by decide, runHistory_lossyMap (by decide) _⟩

end S3FifoCache
end S3Fifo
