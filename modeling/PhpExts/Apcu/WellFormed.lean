import Mathlib.Algebra.BigOperators.Group.Finset.Basic
import PhpExts.Apcu.Cache

/-!
# The cache stays well formed

A cache is well formed if every linked slot is in the chain of its key, no two
linked slots have equal keys, the counters are those of the linked slots, and
every pool belongs to one slot, which is either linked or on the garbage list,
until it is destroyed.

Every function changes a cache by unlinking slots of one chain at a time
(`removeSlot`), by linking one slot, by collecting, or by changing a slot where
it is. `Tallied` says of a collection of slots that it is counted right; removing
a slot keeps the rest tallied (`Tallied.removeSlot`), and every walk along a
chain is a sequence of removals.
-/

namespace PhpExts.Apcu

open PhpExts.Zend

variable {V : Type}

abbrev Slot.pool (s : Slot V) : Nat := s.value.pool

/-- The slots are counted right, and every pool belongs to one of them, to a slot on
the garbage list, or to one slot that has been freed. -/
structure Tallied (c : Cache V) (linked : Multiset (Slot V)) : Prop where
  entries : c.nentries = linked.card
  memory : c.memSize = (linked.map fun s => s.value.memSize).sum
  pools : ((linked + c.gc).map Slot.pool).Nodup
  destroyed : ∀ s ∈ linked + c.gc, ∀ d ∈ c.freed, d.1.pool ≠ s.pool
  once : (c.freed.map fun d => d.1.pool).Nodup

theorem Tallied.discount {c : Cache V} {dead : Slot V} {others : Multiset (Slot V)}
    (tallied : Tallied c (dead ::ₘ others)) : (discount c dead).nentries = others.card ∧
      (discount c dead).memSize = (others.map fun s => s.value.memSize).sum := by
  have entries := tallied.entries
  have memory := tallied.memory
  rw [Multiset.card_cons] at entries
  rw [Multiset.map_cons, Multiset.sum_cons] at memory
  constructor
  · simp only [Apcu.discount, entries]
    simp
  · simp only [Apcu.discount, memory]
    split <;> omega

theorem Tallied.removeSlot {now : Int} {c : Cache V} {dead : Slot V} {others : Multiset (Slot V)}
    (tallied : Tallied c (dead ::ₘ others)) : Tallied (removeSlot now c dead) others := by
  obtain ⟨entries, memory⟩ := tallied.discount
  have pools := tallied.pools
  rw [Multiset.cons_add, Multiset.map_cons, Multiset.nodup_cons] at pools
  have destroyed : ∀ s ∈ others + c.gc, ∀ d ∈ c.freed, d.1.pool ≠ s.pool := fun s mem =>
    tallied.destroyed s (by rw [Multiset.cons_add]; exact Multiset.mem_cons_of_mem mem)
  rw [Apcu.removeSlot]
  split
  · refine ⟨entries, memory, pools.2, fun s mem d freed => ?_, ?_⟩
    · rcases List.mem_append.mp freed with before | now'
      · exact destroyed s mem d before
      · rw [List.mem_singleton.mp now']
        exact fun same => pools.1 (Multiset.mem_map.mpr ⟨s, mem, same.symm⟩)
    · change ((c.freed ++ [(dead, now)]).map fun d => d.1.pool).Nodup
      rw [List.map_append, List.nodup_append]
      refine ⟨tallied.once, by simp, fun p before q now' => ?_⟩
      obtain ⟨d, mem, rfl⟩ := List.mem_map.mp before
      rw [List.map_singleton, List.mem_singleton] at now'
      rw [now']
      exact tallied.destroyed dead (by rw [Multiset.cons_add]; exact Multiset.mem_cons_self _ _)
        d mem
  · refine ⟨entries, memory, ?_, fun s mem d freed => ?_, tallied.once⟩
    · change ((others + ({ dead with dtime := now } :: c.gc : List (Slot V))).map Slot.pool).Nodup
      rw [← Multiset.cons_coe, Multiset.add_cons, Multiset.map_cons, Multiset.nodup_cons]
      exact pools
    · change s ∈ others + ({ dead with dtime := now } :: c.gc : List (Slot V)) at mem
      rw [← Multiset.cons_coe, Multiset.add_cons, Multiset.mem_cons] at mem
      rcases mem with rfl | mem
      · exact tallied.destroyed dead
          (by rw [Multiset.cons_add]; exact Multiset.mem_cons_self _ _) d freed
      · exact destroyed s mem d freed

@[simp] theorem slots_removeSlot {now : Int} {c : Cache V} {dead : Slot V} :
    (removeSlot now c dead).slots = c.slots := by
  rw [removeSlot]
  split <;> rfl

theorem Tallied.apcCacheGc {config : Config V} {now : Int} {c : Cache V}
    {linked : Multiset (Slot V)} (tallied : Tallied c linked) :
    Tallied (apcCacheGc config now c) linked := by
  have less : linked + ((Apcu.apcCacheGc config now c).gc : Multiset (Slot V)) ≤ linked + c.gc :=
    add_le_add_right (Multiset.coe_le.mpr List.filter_sublist.subperm) linked
  have pools := tallied.pools
  rw [Multiset.map_add, Multiset.nodup_add] at pools
  have distinct : (c.gc.map Slot.pool).Nodup := by simpa using pools.2.1
  refine ⟨tallied.entries, tallied.memory, ?_, fun s mem d freed => ?_, ?_⟩
  · exact Multiset.nodup_of_le (Multiset.map_le_map less) tallied.pools
  · rcases List.mem_append.mp freed with before | collected
    · exact tallied.destroyed s (Multiset.mem_of_le less mem) d before
    · obtain ⟨dead, here, rfl⟩ := List.mem_map.mp collected
      obtain ⟨there, isOver⟩ := List.mem_filter.mp here
      rcases Multiset.mem_add.mp mem with link | kept
      · exact fun same => Multiset.disjoint_left.mp pools.2.2
          (Multiset.mem_map_of_mem Slot.pool link)
          (by rw [← same]; exact Multiset.mem_map_of_mem Slot.pool there)
      · obtain ⟨stays, waits⟩ := List.mem_filter.mp kept
        intro same
        have alike : dead = s := List.inj_on_of_nodup_map distinct there stays same
        rw [alike] at isOver
        simp [isOver] at waits
  · change ((c.freed ++ (c.gc.filter (collectable config now)).map fun s => (s, now)).map
      fun d => d.1.pool).Nodup
    rw [List.map_append, List.map_map, List.nodup_append]
    refine ⟨tallied.once, ?_, fun p before q collected => ?_⟩
    · exact (List.filter_sublist.map Slot.pool).nodup distinct
    · obtain ⟨d, mem, rfl⟩ := List.mem_map.mp before
      obtain ⟨dead, here, rfl⟩ := List.mem_map.mp collected
      exact tallied.destroyed dead
        (Multiset.mem_add.mpr (.inr (List.mem_filter.mp here).1)) d mem

theorem sweep_eq (dead : Slot V → Bool) (now : Int) (c : Cache V) (chain : List (Slot V)) :
    (sweep dead now c chain).2 = chain.filter (fun s => !dead s) ∧
      (sweep dead now c chain).1.slots = c.slots := by
  induction chain generalizing c with
  | nil => exact ⟨rfl, rfl⟩
  | cons s rest ih =>
    rw [sweep]
    split
    · rename_i gone
      obtain ⟨kept, slots⟩ := ih (removeSlot now c s)
      exact ⟨by rw [kept, List.filter_cons_of_neg (by simp [gone])], slots.trans slots_removeSlot⟩
    · rename_i stays
      obtain ⟨kept, slots⟩ := ih c
      exact ⟨by simp only [kept]; rw [List.filter_cons_of_pos (by simp [stays])], slots⟩

theorem tallied_sweep {dead : Slot V → Bool} {now : Int} {others : Multiset (Slot V)}
    (chain : List (Slot V)) {c : Cache V} (tallied : Tallied c (chain + others)) :
    Tallied (sweep dead now c chain).1 ((sweep dead now c chain).2 + others) := by
  induction chain generalizing c others with
  | nil => exact tallied
  | cons s rest ih =>
    rw [← Multiset.cons_coe, Multiset.cons_add] at tallied
    rw [sweep]
    split
    · exact ih tallied.removeSlot
    · rw [← Multiset.add_cons] at tallied
      simpa only [← Multiset.cons_coe, Multiset.cons_add, Multiset.add_cons] using ih tallied

section

variable {config : Config V} {key : Key} {exclusive : Bool} {t now : Int}

theorem Tallied.removeAt {others : Multiset (Slot V)} {c : Cache V} {before rest : List (Slot V)}
    {s : Slot V} (tallied : Tallied c (before + (s :: rest : List (Slot V)) + others)) :
    Tallied (Apcu.removeSlot now c s) (before + rest + others) := by
  rw [← Multiset.cons_coe, Multiset.add_cons, Multiset.cons_add] at tallied
  exact tallied.removeSlot

theorem tallied_insertWalk (config : Config V) (key : Key) (exclusive : Bool) (t now : Int)
    {others : Multiset (Slot V)} (before chain : List (Slot V)) {c : Cache V}
    (tallied : Tallied c (before + chain + others)) :
    Tallied (insertWalk config key exclusive t now c before chain).cache
      ((insertWalk config key exclusive t now c before chain).before +
        (insertWalk config key exclusive t now c before chain).rest + others) := by
  induction chain generalizing c before with
  | nil => exact tallied
  | cons s rest ih =>
    rw [insertWalk]
    split
    · split
      · exact tallied
      · exact tallied.removeAt
    · split
      · exact ih _ tallied.removeAt
      · refine ih _ ?_
        rw [← Multiset.coe_add, Multiset.coe_singleton, add_assoc (before : Multiset (Slot V)),
          Multiset.singleton_add, Multiset.cons_coe]
        exact tallied

/-- What an insertion finds: the chain is the slots passed, with the stale ones among
them, and from the place on. -/
structure Walked (config : Config V) (key : Key) (exclusive : Bool) (t : Int)
    (chain : List (Slot V)) (place : Place V) (before : List (Slot V)) : Prop where
  passed : ∃ walked tail, chain = walked ++ tail ∧
    (∀ s ∈ walked, s.matches key.h key.str = false) ∧
    place.before = before ++ walked.filter (fun s => !stale config t s) ∧
    ((tail = [] ∧ place.rest = [] ∧ place.refused = false) ∨
      ∃ s rest, tail = s :: rest ∧ s.matches key.h key.str = true ∧
        ((place.rest = s :: rest ∧ place.refused = true ∧ exclusive = true ∧ inForce t s = true) ∨
          (place.rest = rest ∧ place.refused = false ∧ (exclusive && inForce t s) = false)))

theorem walked_insertWalk (config : Config V) (key : Key) (exclusive : Bool) (t now : Int)
    (c : Cache V) (before chain : List (Slot V)) : Walked config key exclusive t chain
        (insertWalk config key exclusive t now c before chain) before ∧
      (insertWalk config key exclusive t now c before chain).cache.slots = c.slots := by
  induction chain generalizing c before with
  | nil => exact ⟨⟨[], [], rfl, by simp, by simp [insertWalk], .inl ⟨rfl, rfl, rfl⟩⟩, rfl⟩
  | cons s rest ih =>
    rw [insertWalk]
    split
    · rename_i found
      split
      · rename_i refused
        exact ⟨⟨[], s :: rest, rfl, by simp, by simp,
          .inr ⟨s, rest, rfl, found, .inl ⟨rfl, rfl, refused.1, refused.2⟩⟩⟩, rfl⟩
      · rename_i allowed
        refine ⟨⟨[], s :: rest, rfl, by simp, by simp,
          .inr ⟨s, rest, rfl, found, .inr ⟨rfl, rfl, ?_⟩⟩⟩, slots_removeSlot⟩
        simpa using allowed
    · rename_i other
      have differs : s.matches key.h key.str = false := by simpa using other
      split
      · rename_i old
        obtain ⟨⟨walked, tail, rfl, differ, kept, ends⟩, slots⟩ :=
          ih (removeSlot now c s) before
        refine ⟨⟨s :: walked, tail, rfl, ?_, ?_, ends⟩, slots.trans slots_removeSlot⟩
        · exact List.forall_mem_cons.mpr ⟨differs, differ⟩
        · rw [kept, List.filter_cons_of_neg (by simp [old])]
      · rename_i young
        obtain ⟨⟨walked, tail, rfl, differ, kept, ends⟩, slots⟩ :=
          ih c (before ++ [s])
        refine ⟨⟨s :: walked, tail, rfl, ?_, ?_, ends⟩, slots⟩
        · exact List.forall_mem_cons.mpr ⟨differs, differ⟩
        · rw [kept, List.filter_cons_of_pos (by simp [young]), List.append_assoc,
            List.singleton_append]

end

/-! ## Well-formed caches -/

def IsCString (str : Bytes) : Prop := ∃ text : Bytes, str = text ++ [0] ∧ 0 ∉ text

section

variable (config : Config V)

def linked (c : Cache V) : Multiset (Slot V) :=
  ∑ i ∈ Finset.range config.nslots, (c.slots i : Multiset (Slot V))

def others (c : Cache V) (i : Nat) : Multiset (Slot V) :=
  ∑ j ∈ Finset.range config.nslots \ {i}, (c.slots j : Multiset (Slot V))

structure Belongs (i : Nat) (s : Slot V) : Prop where
  placed : config.hash s.key.str % config.nslots = i
  hashed : s.key.h = config.hash s.key.str
  terminated : IsCString s.key.str

structure ChainOk (i : Nat) (chain : List (Slot V)) : Prop where
  belongs : ∀ s ∈ chain, Belongs config i s
  distinct : (chain.map fun s => s.key.str).Nodup

/-- **Well-formed caches.** -/
structure WellFormed (c : Cache V) : Prop where
  belongs : ∀ i < config.nslots, ∀ s ∈ c.slots i, Belongs config i s
  distinct : ((linked config c).map fun s => s.key.str).Nodup
  tallied : Tallied c (linked config c)

variable {config} {c : Cache V} {i : Nat}

theorem linked_eq (small : i < config.nslots) :
    linked config c = c.slots i + others config c i := by
  rw [linked, others, ← Finset.add_sum_erase _ _ (Finset.mem_range.mpr small),
    Finset.sdiff_singleton_eq_erase]

theorem linked_setChain {chain : List (Slot V)} (small : i < config.nslots) :
    linked config (c.setChain i chain) = chain + others config c i := by
  rw [linked_eq small]
  congr 1
  · simp [Cache.setChain]
  · refine Finset.sum_congr rfl fun j mem => ?_
    have different : j ≠ i := by simpa using (Finset.mem_sdiff.mp mem).2
    simp [Cache.setChain, different]

theorem linked_congr {c' : Cache V} (same : c'.slots = c.slots) :
    linked config c' = linked config c := by
  rw [linked, linked, same]

theorem others_congr {c' : Cache V} (same : c'.slots = c.slots) :
    others config c' i = others config c i := by
  rw [others, others, same]

theorem mem_linked {s : Slot V} : s ∈ linked config c ↔ ∃ i < config.nslots, s ∈ c.slots i := by
  simp [linked, Multiset.mem_sum]

theorem nodup_linked (chains : ∀ i < config.nslots, ChainOk config i (c.slots i)) :
    ((linked config c).map fun s => s.key.str).Nodup := by
  have part : ∀ n ≤ config.nslots,
      ((∑ i ∈ Finset.range n, (c.slots i : Multiset (Slot V))).map fun s => s.key.str).Nodup := by
    intro n
    induction n with
    | zero => intro _; simp
    | succ n ih =>
      intro le
      rw [Finset.sum_range_succ, Multiset.map_add, Multiset.nodup_add]
      refine ⟨ih (by omega), by simpa using (chains n le).distinct, ?_⟩
      refine Multiset.disjoint_left.mpr fun before here => ?_
      obtain ⟨s, mem, rfl⟩ := Multiset.mem_map.mp before
      obtain ⟨i, small, there⟩ := Multiset.mem_sum.mp mem
      obtain ⟨s', here, same⟩ := Multiset.mem_map.mp here
      have less : i < n := Finset.mem_range.mp small
      have first := ((chains i (by omega)).belongs s there).placed
      have second := ((chains n le).belongs s' here).placed
      rw [same] at second
      omega
  exact part _ le_rfl

theorem WellFormed.of_chains (chains : ∀ i < config.nslots, ChainOk config i (c.slots i))
    (tallied : Tallied c (linked config c)) : WellFormed config c :=
  ⟨fun i small => (chains i small).belongs, nodup_linked chains, tallied⟩

theorem WellFormed.chain (formed : WellFormed config c) (small : i < config.nslots) :
    ChainOk config i (c.slots i) := by
  refine ⟨formed.belongs i small, ?_⟩
  have distinct := formed.distinct
  rw [linked_eq small, Multiset.map_add, Multiset.nodup_add] at distinct
  simpa using distinct.1

theorem ChainOk.of_sublist {chain chain' : List (Slot V)} (ok : ChainOk config i chain)
    (sub : chain'.Sublist chain) : ChainOk config i chain' :=
  ⟨fun s mem => ok.belongs s (sub.subset mem), (sub.map _).nodup ok.distinct⟩

theorem WellFormed.setChain {chain : List (Slot V)} {c' : Cache V} (formed : WellFormed config c)
    (small : i < config.nslots) (ok : ChainOk config i chain) (same : c'.slots = c.slots)
    (tallied : Tallied c' (chain + others config c i)) :
    WellFormed config (c'.setChain i chain) := by
  refine .of_chains (fun j less => ?_) ?_
  · by_cases here : j = i
    · subst here
      simpa [Cache.setChain] using ok
    · simpa [Cache.setChain, here, same] using formed.chain less
  · rw [linked_setChain small, others_congr same]
    exact ⟨tallied.entries, tallied.memory, tallied.pools, tallied.destroyed, tallied.once⟩

variable {str : Bytes}

theorem hashSlot_lt : hashSlot config str < config.nslots :=
  Nat.mod_lt _ config.nonempty

theorem eq_of_isPrefix {a b : Bytes} (first : IsCString a) (second : IsCString b)
    (pre : a <+: b) : a = b := by
  obtain ⟨text, rfl, plain⟩ := first
  obtain ⟨text', rfl, plain'⟩ := second
  obtain ⟨rest, same⟩ := pre
  rw [List.append_assoc, List.singleton_append] at same
  rcases List.append_eq_append_iff.mp same with ⟨more, rfl, tail⟩ | ⟨more, rfl, tail⟩
  · cases more with
    | nil => simp
    | cons byte more =>
      rw [List.cons_append, List.cons.injEq] at tail
      exact absurd (List.mem_append_right _ (tail.1 ▸ .head _)) plain'
  · cases more with
    | nil => simp
    | cons byte more =>
      rw [List.cons_append, List.cons.injEq] at tail
      exact absurd tail.2 (by simp)

theorem matches_iff {s : Slot V} (belongs : Belongs config i s)
    (terminated : IsCString str) : s.matches (config.hash str) str = true ↔ s.key.str = str := by
  simp only [Slot.matches, decide_eq_true_eq, List.isPrefixOf_iff_prefix, belongs.hashed]
  constructor
  · exact fun ⟨_, pre⟩ => (eq_of_isPrefix terminated belongs.terminated pre).symm
  · rintro rfl
    exact ⟨rfl, List.prefix_refl _⟩

/-! ## The functions keep a cache well formed -/

theorem WellFormed.congr {c' : Cache V} (formed : WellFormed config c) (same : c'.slots = c.slots)
    (tallied : Tallied c' (linked config c)) : WellFormed config c' :=
  ⟨by simpa only [same] using formed.belongs, by simpa only [linked_congr same] using formed.distinct,
    by simpa only [linked_congr same] using tallied⟩

variable {now : Int}

theorem WellFormed.apcCacheGc (formed : WellFormed config c) :
    WellFormed config (apcCacheGc config now c) :=
  formed.congr rfl formed.tallied.apcCacheGc

theorem WellFormed.sweepChain {dead : Slot V → Bool} (formed : WellFormed config c)
    (small : i < config.nslots) : WellFormed config (sweepChain dead now c i) := by
  have tallied := formed.tallied
  rw [linked_eq small] at tallied
  obtain ⟨kept, slots⟩ := sweep_eq dead now c (c.slots i)
  refine formed.setChain small ?_ slots (tallied_sweep _ tallied)
  rw [kept]
  exact (formed.chain small).of_sublist List.filter_sublist

theorem WellFormed.sweepAll {dead : Slot V → Bool} (formed : WellFormed config c) :
    WellFormed config (sweepAll config dead now c) := by
  rw [Apcu.sweepAll]
  have part : ∀ indices : List Nat, (∀ i ∈ indices, i < config.nslots) →
      ∀ c, WellFormed config c → WellFormed config (indices.foldl (Apcu.sweepChain dead now) c) := by
    intro indices small
    induction indices with
    | nil => exact fun _ formed => formed
    | cons i rest ih =>
      intro c formed
      exact ih (fun j mem => small j (.tail _ mem)) _
        (formed.sweepChain (small i (.head _)))
  exact part _ (fun i mem => List.mem_range.mp mem) c formed

theorem slots_sweepAll {c : Cache V} (small : i < config.nslots) :
    (sweepAll config (fun _ => true) now c).slots i = [] := by
  have part : ∀ indices : List Nat, ∀ c : Cache V, (i ∈ indices ∨ c.slots i = []) →
      (indices.foldl (Apcu.sweepChain (fun _ => true) now) c).slots i = [] := by
    intro indices
    induction indices with
    | nil =>
      rintro c (mem | none)
      · cases mem
      · exact none
    | cons j rest ih =>
      intro c either
      refine ih _ ?_
      obtain ⟨kept, slots⟩ := sweep_eq (fun _ => true) now c (c.slots j)
      by_cases here : i = j
      · subst here
        exact .inr (by simp [Apcu.sweepChain, Cache.setChain, kept])
      · rcases either with mem | none
        · exact .inl ((List.mem_cons.mp mem).resolve_left here)
        · exact .inr (by simpa [Apcu.sweepChain, Cache.setChain, here, slots] using none)
  exact part _ c (.inl (List.mem_range.mpr small))

def Slot.mark (s : Slot V) : Bytes × Nat × Nat × Nat :=
  (s.key.str, s.key.h, s.pool, s.value.memSize)

theorem WellFormed.of_marks {c' : Cache V} (formed : WellFormed config c)
    (chains : ∀ i, (c'.slots i).map Slot.mark = (c.slots i).map Slot.mark)
    (gc : c'.gc.map Slot.mark = c.gc.map Slot.mark) (entries : c'.nentries = c.nentries)
    (memory : c'.memSize = c.memSize) (freed : c'.freed = c.freed) : WellFormed config c' := by
  have marks : (linked config c').map Slot.mark = (linked config c).map Slot.mark := by
    simp only [linked, ← Multiset.mapAddMonoidHom_apply, map_sum]
    refine Finset.sum_congr rfl fun i _ => ?_
    simp [chains i]
  have images {β : Type} (f : Bytes × Nat × Nat × Nat → β) :
      (linked config c').map (fun s => f s.mark) = (linked config c).map fun s => f s.mark := by
    simpa only [Multiset.map_map, Function.comp_def] using congrArg (Multiset.map f) marks
  have pools : (linked config c' + c'.gc).map Slot.pool = (linked config c + c.gc).map Slot.pool := by
    rw [Multiset.map_add, Multiset.map_add]
    congr 1
    · exact images fun mark => mark.2.2.1
    · have same := congrArg (List.map fun mark => mark.2.2.1) gc
      rw [List.map_map, List.map_map] at same
      exact congrArg Multiset.ofList same
  refine ⟨fun i small s mem => ?_, ?_, ?_, ?_, ?_, fun s mem d there => ?_, ?_⟩
  · have marked : s.mark ∈ (c.slots i).map Slot.mark :=
      chains i ▸ List.mem_map_of_mem mem
    obtain ⟨s', here, same⟩ := List.mem_map.mp marked
    obtain ⟨str, h, -, -⟩ := by simpa [Slot.mark] using same
    have belongs := formed.belongs i small s' here
    exact ⟨by rw [← str]; exact belongs.placed, by rw [← str, ← h]; exact belongs.hashed,
      by rw [← str]; exact belongs.terminated⟩
  · exact (images fun mark => mark.1) ▸ formed.distinct
  · have card := congrArg Multiset.card marks
    rw [Multiset.card_map, Multiset.card_map] at card
    rw [entries, card]
    exact formed.tallied.entries
  · rw [memory, formed.tallied.memory]
    exact congrArg Multiset.sum (images fun mark => mark.2.2.2).symm
  · rw [pools]
    exact formed.tallied.pools
  · have pool : s.pool ∈ (linked config c + c.gc).map Slot.pool :=
      pools ▸ Multiset.mem_map_of_mem _ mem
    obtain ⟨s', here, same⟩ := Multiset.mem_map.mp pool
    rw [← same]
    exact formed.tallied.destroyed s' here d (freed ▸ there)
  · rw [freed]
    exact formed.tallied.once

theorem map_modifyFirst {β : Type} {g : Slot V → β} {f : Slot V → Slot V}
    (same : ∀ s, g (f s) = g s) (chain : List (Slot V)) :
    (modifyFirst config str f chain).map g = chain.map g := by
  induction chain with
  | nil => rfl
  | cons s rest ih =>
    rw [modifyFirst]
    split
    · simp [same]
    · simp [ih]

theorem WellFormed.modifySlot {c' : Cache V} {f : Slot V → Slot V}
    (formed : WellFormed config c) (same : ∀ s, (f s).mark = s.mark) (slots : c'.slots = c.slots)
    (gc : c'.gc = c.gc) (entries : c'.nentries = c.nentries) (memory : c'.memSize = c.memSize)
    (freed : c'.freed = c.freed) : WellFormed config (c'.modifySlot config str f) := by
  refine formed.of_marks (fun i => ?_) (by rw [← gc]; rfl) entries memory freed
  by_cases here : i = hashSlot config str
  · subst here
    simp [Cache.modifySlot, Cache.setChain, slots, map_modifyFirst same]
  · simp [Cache.modifySlot, Cache.setChain, slots, here]

theorem WellFormed.apcCacheFind {t : Int} (formed : WellFormed config c) :
    WellFormed config (apcCacheFind config c str t).2 := by
  rw [Apcu.apcCacheFind]
  split
  · exact formed.congr rfl ⟨formed.tallied.entries, formed.tallied.memory, formed.tallied.pools,
      formed.tallied.destroyed, formed.tallied.once⟩
  · split
    · exact formed.congr rfl ⟨formed.tallied.entries, formed.tallied.memory,
        formed.tallied.pools, formed.tallied.destroyed, formed.tallied.once⟩
    · exact formed.modifySlot (fun _ => rfl) rfl rfl rfl rfl rfl

theorem WellFormed.apcCacheExists {t : Int} (formed : WellFormed config c) :
    WellFormed config (apcCacheExists config c str t).2 := by
  rw [Apcu.apcCacheExists]
  split
  · exact formed
  · split
    · exact formed.of_marks (fun _ => rfl) rfl rfl rfl rfl
    · exact formed

theorem WellFormed.apcCacheUpdate {updater : V → Bool × V} (formed : WellFormed config c) :
    WellFormed config (apcCacheUpdate config c str updater now).2 := by
  rw [Apcu.apcCacheUpdate]
  split
  · exact formed
  · split
    · exact formed
    · exact formed.modifySlot (fun _ => rfl) rfl rfl rfl rfl rfl

theorem mark_releaseSlot {pool : Nat} {s : Slot V} : (releaseSlot pool s).mark = s.mark := by
  rw [releaseSlot]
  split <;> rfl

theorem WellFormed.apcCacheRelease {pool : Nat} (formed : WellFormed config c) :
    WellFormed config (apcCacheRelease c pool) := by
  refine formed.of_marks (fun i => ?_) ?_ rfl rfl rfl <;>
    simp [Apcu.apcCacheRelease, Function.comp_def, mark_releaseSlot]

theorem deleteFirst_eq (config : Config V) (str : Bytes) (chain : List (Slot V)) :
    (∃ dead, (deleteFirst config str chain).2 = some dead ∧
      (dead :: (deleteFirst config str chain).1).Perm chain ∧
      (deleteFirst config str chain).1.Sublist chain) ∨
    (deleteFirst config str chain).2 = none := by
  induction chain with
  | nil => exact .inr rfl
  | cons s rest ih =>
    rw [deleteFirst]
    split
    · exact .inl ⟨s, rfl, .refl _, List.sublist_cons_self _ _⟩
    · rcases ih with ⟨dead, found, perm, sub⟩ | none
      · exact .inl ⟨dead, found, (List.Perm.swap _ _ _).trans (perm.cons s), sub.cons_cons s⟩
      · exact .inr none

theorem WellFormed.apcCacheDelete (formed : WellFormed config c) :
    WellFormed config (apcCacheDelete config c str now).2 := by
  rw [Apcu.apcCacheDelete]
  rcases deleteFirst_eq config str (c.slots (hashSlot config str)) with
    ⟨dead, found, perm, sub⟩ | none
  · simp only [found]
    refine formed.setChain hashSlot_lt ((formed.chain hashSlot_lt).of_sublist sub)
      slots_removeSlot (Tallied.removeSlot ?_)
    rw [← Multiset.cons_add, Multiset.cons_coe, Multiset.coe_eq_coe.mpr perm,
      ← linked_eq hashSlot_lt]
    exact formed.tallied
  · simp only [none]
    exact formed

theorem WellFormed.apcCacheRealExpunge (formed : WellFormed config c) :
    WellFormed config (apcCacheRealExpunge config now c) := by
  have counted : WellFormed config { c with nexpunges := c.nexpunges + 1 } :=
    formed.of_marks (fun _ => rfl) rfl rfl rfl rfl
  have swept : WellFormed config (Apcu.sweepAll config (fun _ => true) now
      { c with nexpunges := c.nexpunges + 1 }) := counted.sweepAll
  refine swept.of_marks (fun _ => rfl) rfl ?_ rfl rfl
  have none : linked config (Apcu.sweepAll config (fun _ => true) now
      { c with nexpunges := c.nexpunges + 1 }) = 0 :=
    Finset.sum_eq_zero fun i mem => by
      rw [slots_sweepAll (Finset.mem_range.mp mem), Multiset.coe_nil]
  have entries := swept.tallied.entries
  rw [none, Multiset.card_zero] at entries
  exact entries.symm

theorem WellFormed.apcCacheClear (formed : WellFormed config c) :
    WellFormed config (apcCacheClear config now c) :=
  (formed.apcCacheRealExpunge : WellFormed config (Apcu.apcCacheRealExpunge config now c)).of_marks
    (fun _ => rfl) rfl rfl rfl rfl

theorem WellFormed.apcCacheDefaultExpunge {short room : Bool} {t : Int}
    (formed : WellFormed config c) :
    WellFormed config (apcCacheDefaultExpunge config short room t now c) := by
  rw [Apcu.apcCacheDefaultExpunge]
  split
  · split
    · exact formed.apcCacheGc.apcCacheRealExpunge
    · split
      · exact formed.apcCacheGc.sweepAll
      · exact formed.apcCacheGc.sweepAll.apcCacheRealExpunge
  · exact formed.apcCacheGc

structure Unused (c : Cache V) (pool : Nat) : Prop where
  gc : ∀ s ∈ c.gc, s.pool ≠ pool
  freed : ∀ d ∈ c.freed, d.1.pool ≠ pool

structure NewPool (config : Config V) (c : Cache V) (pool : Nat) : Prop extends Unused c pool where
  linked : ∀ s ∈ linked config c, s.pool ≠ pool

theorem Unused.removeSlot {pool : Nat} {dead : Slot V} (unused : Unused c pool)
    (other : dead.pool ≠ pool) : Unused (removeSlot now c dead) pool := by
  rw [Apcu.removeSlot]
  split
  · refine ⟨unused.gc, fun d mem => ?_⟩
    rcases List.mem_append.mp mem with before | last
    · exact unused.freed d before
    · rw [List.mem_singleton.mp last]
      exact other
  · exact ⟨List.forall_mem_cons.mpr ⟨other, unused.gc⟩, unused.freed⟩

theorem Unused.apcCacheGc {pool : Nat} (unused : Unused c pool) :
    Unused (apcCacheGc config now c) pool := by
  refine ⟨fun s mem => unused.gc s (List.mem_filter.mp mem).1, fun d mem => ?_⟩
  rcases List.mem_append.mp mem with before | last
  · exact unused.freed d before
  · obtain ⟨s, here, rfl⟩ := List.mem_map.mp last
    exact unused.gc s (List.mem_filter.mp here).1

theorem Unused.insertWalk (config : Config V) (key : Key) (exclusive : Bool) (t now : Int)
    {pool : Nat} (before chain : List (Slot V)) {c : Cache V} (unused : Unused c pool)
    (other : ∀ s ∈ chain, s.pool ≠ pool) :
    Unused (insertWalk config key exclusive t now c before chain).cache pool := by
  induction chain generalizing c before with
  | nil => exact unused
  | cons s rest ih =>
    obtain ⟨here, rest'⟩ := List.forall_mem_cons.mp other
    rw [Apcu.insertWalk]
    split
    · split
      · exact unused
      · exact unused.removeSlot here
    · split
      · exact ih _ (unused.removeSlot here) rest'
      · exact ih _ unused rest'

theorem Tallied.count {linked : Multiset (Slot V)} {s : Slot V} {poolSize : Nat}
    (tallied : Tallied c linked) (unused : Unused c s.pool) (other : ∀ s' ∈ linked, s'.pool ≠ s.pool)
    (size : s.value.memSize = poolSize) : Tallied (count c poolSize) (s ::ₘ linked) := by
  refine ⟨?_, ?_, ?_, fun s' mem d freed => ?_, tallied.once⟩
  · rw [Multiset.card_cons, ← tallied.entries]
    rfl
  · rw [Multiset.map_cons, Multiset.sum_cons, ← tallied.memory, size, Nat.add_comm]
    rfl
  · rw [Multiset.cons_add, Multiset.map_cons, Multiset.nodup_cons]
    refine ⟨fun mem => ?_, tallied.pools⟩
    obtain ⟨s', here, same⟩ := Multiset.mem_map.mp mem
    rcases Multiset.mem_add.mp here with link | gc
    · exact other s' link same
    · exact unused.gc s' gc same
  · rw [Multiset.cons_add, Multiset.mem_cons] at mem
    rcases mem with rfl | mem
    · exact unused.freed d freed
    · exact tallied.destroyed s' mem d freed

theorem Walked.free {key : Key} {exclusive : Bool} {t : Int} {chain : List (Slot V)}
    {place : Place V} (walked : Walked config key exclusive t chain place [])
    (distinct : (chain.map fun s => s.key.str).Nodup)
    (found : ∀ s ∈ chain, s.matches key.h key.str = true ↔ s.key.str = key.str)
    (allowed : place.refused = false) : (place.before ++ place.rest).Sublist chain ∧
      ∀ s ∈ place.before ++ place.rest, s.key.str ≠ key.str := by
  obtain ⟨passed, tail, rfl, differ, before, ends⟩ := walked.passed
  rw [List.nil_append] at before
  have passes : ∀ s ∈ place.before, s.key.str ≠ key.str := by
    intro s mem same
    rw [before] at mem
    have here := List.mem_of_mem_filter mem
    have wrong := (found s (List.mem_append_left _ here)).mpr same
    rw [differ s here] at wrong
    cases wrong
  rcases ends with ⟨rfl, rest, -⟩ | ⟨s, rest', rfl, hit, refused | ⟨rest, -, -⟩⟩
  · rw [rest, List.append_nil, List.append_nil, before]
    exact ⟨List.filter_sublist, by rwa [← before]⟩
  · rw [refused.2.1] at allowed
    cases allowed
  · rw [rest]
    refine ⟨?_, fun s' mem => ?_⟩
    · rw [before]
      exact List.filter_sublist.append (List.sublist_cons_self _ _)
    · rcases List.mem_append.mp mem with first | later
      · exact passes s' first
      · have key' := (found s (List.mem_append_right _ (.head _))).mp hit
        rw [List.map_append, List.map_cons, List.nodup_append] at distinct
        have notIn := (List.nodup_cons.mp distinct.2.1).1
        exact fun same => notIn (List.mem_map.mpr ⟨s', later, same.trans key'.symm⟩)

theorem Walked.sublist {key : Key} {exclusive : Bool} {t : Int} {chain : List (Slot V)}
    {place : Place V} (walked : Walked config key exclusive t chain place []) :
    (place.before ++ place.rest).Sublist chain := by
  obtain ⟨passed, tail, rfl, -, before, ends⟩ := walked.passed
  rw [before, List.nil_append]
  refine List.filter_sublist.append ?_
  rcases ends with ⟨rfl, rest, -⟩ | ⟨s, rest', rfl, -, ⟨rest, -⟩ | ⟨rest, -⟩⟩
  · rw [rest]
  · rw [rest]
  · rw [rest]
    exact List.sublist_cons_self _ _

theorem WellFormed.apcCacheInsert {mtime t : Int} {value : Entry V}
    {poolSize : Nat} {exclusive : Bool} (formed : WellFormed config c)
    (terminated : IsCString str) (new : NewPool config c value.pool) :
    WellFormed config (apcCacheInsert config c (makeKey config str mtime) value poolSize t now
      exclusive .succeeds).2 := by
  have small : (makeKey config str mtime).h % config.nslots < config.nslots := hashSlot_lt
  generalize index : (makeKey config str mtime).h % config.nslots = i at small
  have collected : WellFormed config (Apcu.apcCacheGc config now c) := formed.apcCacheGc
  have chain := collected.chain small
  have tallied := collected.tallied
  have unlinked : ∀ s ∈ linked config (Apcu.apcCacheGc config now c), s.pool ≠ value.pool :=
    new.linked
  have unused : Unused (Apcu.apcCacheGc config now c) value.pool := new.toUnused.apcCacheGc
  rw [linked_eq small] at tallied unlinked
  simp only [Apcu.apcCacheInsert, index]
  generalize Apcu.apcCacheGc config now c = before at *
  obtain ⟨walked, slots⟩ := walked_insertWalk config (makeKey config str mtime) exclusive t now
    before [] (before.slots i)
  have counted := tallied_insertWalk config (makeKey config str mtime) exclusive t now []
    (before.slots i) (by simpa using tallied)
  have still := unused.insertWalk config (makeKey config str mtime) exclusive t now []
    (before.slots i)
    fun s mem => unlinked s (Multiset.mem_add.mpr (.inl mem))
  generalize insertWalk config (makeKey config str mtime) exclusive t now before []
    (before.slots i) = place at *
  have kept := walked.sublist
  by_cases refused : place.refused
  · rw [if_pos refused]
    exact collected.setChain small (chain.of_sublist kept) slots
      (by rwa [← Multiset.coe_add])
  · rw [if_neg refused]
    have free := (walked.free chain.distinct
      (fun s mem => matches_iff (chain.belongs s mem) terminated)
      (by simpa using refused)).2
    generalize new : newSlot (makeKey config str mtime) { value with memSize := poolSize } t = slot
    have perm : (place.before ++ slot :: place.rest).Perm (slot :: (place.before ++ place.rest)) :=
      List.perm_middle
    change WellFormed config
      ((count place.cache poolSize).setChain i (place.before ++ slot :: place.rest))
    refine collected.setChain small ⟨fun s mem => ?_, ?_⟩ slots ?_
    · rcases List.mem_cons.mp (perm.subset mem) with rfl | old
      · subst new
        exact ⟨index, rfl, terminated⟩
      · exact chain.belongs s (kept.subset old)
    · refine (perm.map _).nodup_iff.mpr (List.nodup_cons.mpr ⟨fun mem => ?_, ?_⟩)
      · obtain ⟨s, old, same⟩ := List.mem_map.mp mem
        subst new
        exact free s old same
      · exact (kept.map _).nodup chain.distinct
    · rw [Multiset.coe_eq_coe.mpr perm, ← Multiset.cons_coe, Multiset.cons_add,
        ← Multiset.coe_add]
      subst new
      refine counted.count still (fun s mem => ?_) rfl
      rcases Multiset.mem_add.mp mem with here | there
      · exact unlinked s (Multiset.mem_add.mpr (.inl (kept.subset (by simpa using here))))
      · exact unlinked s (Multiset.mem_add.mpr (.inr there))

def Call.Allowed (config : Config V) (c : Cache V) : Call V → Prop
  | .insert str _ _ pool _ _ _ => IsCString str ∧ NewPool config c pool
  | _ => True

theorem WellFormed.perform {call : Call V} (formed : WellFormed config c)
    (allowed : call.Allowed config c) : WellFormed config (perform config now c call) := by
  cases call with
  | insert str val ttl pool poolSize exclusive t => exact formed.apcCacheInsert allowed.1 allowed.2
  | update str updater => exact formed.apcCacheUpdate
  | delete str => exact formed.apcCacheDelete
  | find str t => exact formed.apcCacheFind
  | «exists» str t => exact formed.apcCacheExists
  | release pool => exact formed.apcCacheRelease
  | clear => exact formed.apcCacheClear
  | expunge short room t => exact formed.apcCacheDefaultExpunge
  | gc => exact formed.apcCacheGc

theorem wellFormed_empty (start : Int) : WellFormed config (Cache.empty start : Cache V) := by
  have none : linked config (Cache.empty start : Cache V) = 0 := Finset.sum_eq_zero fun _ _ => rfl
  refine .of_chains (fun _ _ => ⟨fun s mem => (by cases mem), List.nodup_nil⟩) ?_
  rw [none]
  exact ⟨rfl, rfl, Multiset.nodup_zero, fun s mem => (by cases mem), List.nodup_nil⟩

variable (config) in
inductive Reachable : Cache V → Int → Prop where
  | empty (start : Int) : Reachable (Cache.empty start) start
  | step {c : Cache V} {before : Int} (reached : Reachable c before) (now : Int)
      (later : before ≤ now) (call : Call V) (allowed : call.Allowed config c) :
      Reachable (perform config now c call) now

/-- **Every cache that calls lead to is well formed.** -/
theorem wellFormed_of_reachable {now : Int} (reached : Reachable config c now) :
    WellFormed config c := by
  induction reached with
  | empty start => exact wellFormed_empty start
  | step reached now later call allowed ih => exact ih.perform allowed

end

def smallConfig : Config Nat :=
  { nslots := 8, nonempty := by decide, gcTtl := 3600, ttl := 0, serializer := false,
    hash := List.length, isContainer := fun _ => false }

theorem wellFormed_storedAndDeleted : WellFormed smallConfig (perform smallConfig 3
        (perform smallConfig 2 (perform smallConfig 1 (Cache.empty 0)
          (.insert [65, 0] 7 0 0 64 true 1)) (.find [65, 0] 2)) (.delete [65, 0])) := by
  have empty : Reachable smallConfig (Cache.empty 0) 0 := .empty 0
  have stored := empty.step 1 (by decide) (.insert [65, 0] 7 0 0 64 true 1)
    ⟨⟨[65], rfl, by decide⟩, ⟨⟨by decide, by decide⟩, fun s member => by
      obtain ⟨i, -, none⟩ := mem_linked.mp member
      cases none⟩⟩
  exact wellFormed_of_reachable
    ((stored.step 2 (by decide) (.find [65, 0] 2) trivial).step 3 (by decide)
      (.delete [65, 0]) trivial)

end PhpExts.Apcu
