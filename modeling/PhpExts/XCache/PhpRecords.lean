import PhpExts.XCache.PhpCache
import Mathlib.Data.Fintype.BigOperators

/-!
# Consistency of the cache of compiled files

`Linked` says how entries, chains and holds belong together, `Shared` how the records of
compiled sources do. Between the functions of one section an entry may be out of its chain
already, or a record not in use yet.

Each function has one lemma: it is defined and keeps both.
-/

namespace PhpExts.XCache.PhpCache

open Function (update update_of_ne update_self)
open Option (bind_eq_bind bind_some)

open PhpExts.Library

variable {config : Config} {cached cached' : Cached config} {slot : Fin config.slots}
  {entry php : Nat} {requestTime : Int}

/-- Entries are linked in one chain or await their deletion; they are counted, and so are the
holds on them. An entry that is loose is in neither place. -/
structure Linked (loose : Option Nat) (cached : Cached config) : Prop where
  linked : ∀ {slot entry}, entry ∈ cached.entries slot → entry ∈ cached.entryMemory.live
  deleted : ∀ {entry}, entry ∈ cached.deletes → entry ∈ cached.entryMemory.live
  unlinked : ∀ {entry}, loose = some entry → entry ∈ cached.entryMemory.live ∧
    (∀ slot, entry ∉ cached.entries slot) ∧ entry ∉ cached.deletes
  owned : ∀ {entry}, entry ∈ cached.entryMemory.live →
    (∃ slot, entry ∈ cached.entries slot) ∨ entry ∈ cached.deletes ∨ loose = some entry
  chainNodup : ∀ slot, (cached.entries slot).Nodup
  oneSlot : ∀ {slot slot' entry}, entry ∈ cached.entries slot → entry ∈ cached.entries slot' →
    slot = slot'
  deletesNodup : cached.deletes.Nodup
  notBoth : ∀ {slot entry}, entry ∈ cached.entries slot → entry ∉ cached.deletes
  unequal : ∀ {slot entry other}, entry ∈ cached.entries slot → other ∈ cached.entries slot →
    entryEqual (cached.entryMemory.data entry).key (cached.entryMemory.data other).key = true →
      entry = other
  refcount : ∀ {entry}, entry ∈ cached.entryMemory.live →
    (cached.entryMemory.data entry).refcount = (cached.holds.map Prod.snd).count entry
  held : ∀ {pid entry}, (pid, entry) ∈ cached.holds → entry ∈ cached.entryMemory.live
  entriesCount : cached.entriesCount = ∑ slot, ((cached.entries slot).length : Int)
  deletesCount : cached.deletesCount = cached.deletes.length

/-- Records are linked under their digest, of which there is one, and count the entries that
point to them; only one that is unused may have none. -/
structure Shared (unused : Option Nat) (cached : Cached config) : Prop where
  entryPhp : ∀ {entry}, entry ∈ cached.entryMemory.live →
    (cached.entryMemory.data entry).php ∈ cached.phpMemory.live
  linked : ∀ {slot php}, php ∈ cached.phps slot ↔
    php ∈ cached.phpMemory.live ∧ config.hvalue (cached.phpMemory.data php).digest = slot
  nodup : ∀ slot, (cached.phps slot).Nodup
  digest : ∀ {php other}, php ∈ cached.phpMemory.live → other ∈ cached.phpMemory.live →
    (cached.phpMemory.data php).digest = (cached.phpMemory.data other).digest → php = other
  refcount : ∀ {php}, php ∈ cached.phpMemory.live →
    (cached.phpMemory.data php).refcount = cached.entryMemory.number fun e => e.php = php
  used : ∀ {php}, php ∈ cached.phpMemory.live → unused ≠ some php →
    (cached.phpMemory.data php).refcount ≠ 0
  removals : ∀ removal ∈ cached.removals, removal.1 = removal.2

structure Shrinks (cached cached' : Cached config) : Prop where
  entries : ∀ {slot entry}, entry ∈ cached'.entries slot → entry ∈ cached.entries slot
  key : ∀ entry, (cached'.entryMemory.data entry).key = (cached.entryMemory.data entry).key

theorem Shrinks.refl (cached : Cached config) : Shrinks cached cached :=
  ⟨fun mem => mem, fun _ => rfl⟩

theorem findFirst_eq {α : Type} {memory : Memory α} {p : α → Bool} {chain : List Nat}
    (live : ∀ address ∈ chain, address ∈ memory.live) :
    findFirst memory p chain = some (chain.find? fun address => p (memory.data address)) := by
  induction chain with
  | nil => rfl
  | cons address chain ih =>
    obtain ⟨here, others⟩ := List.forall_mem_cons.mp live
    rw [findFirst, Memory.read_eq_some here, bind_eq_bind, bind_some]
    by_cases own : p (memory.data address) = true
    · simp only [own, if_true, List.find?_cons]
    · rw [if_neg own, ih others]
      simp only [own, List.find?_cons]

theorem sum_update (entries : Fin config.slots → List Nat) (slot : Fin config.slots)
    (chain : List Nat) : ∑ any, ((update entries slot chain any).length : Int) =
      ∑ any, ((entries any).length : Int) - (entries slot).length + chain.length := by
  have split := Finset.sum_update_of_mem (Finset.mem_univ slot)
    (fun any => ((entries any).length : Int)) (chain.length : Int)
  have each : (fun any => ((update entries slot chain any).length : Int)) =
      update (fun any => ((entries any).length : Int)) slot chain.length := by
    funext any
    by_cases here : any = slot
    · subst here
      simp only [update_self]
    · simp only [update_of_ne here]
  rw [each, split, ← Finset.sum_sdiff (Finset.subset_univ {slot})]
  simp only [Finset.sum_singleton]
  omega

/-! ## Records of sources -/

theorem digest_write (memory : Memory Php) (php : Nat) (refcount : Int) (other : Nat) :
    ((memory.write php { memory.data php with refcount := refcount }).data other).digest =
      (memory.data other).digest := by
  by_cases here : other = php
  · rw [here, Memory.write_data_self]
  · rw [Memory.write_data_of_ne here]

theorem number_free_own {memory : Memory Entry} (live : entry ∈ memory.live) :
    (memory.free entry).number (fun e => e.php = (memory.data entry).php) + 1 =
      memory.number fun e => e.php = (memory.data entry).php := by
  have := @Memory.number_free _ memory entry (fun e => e.php = (memory.data entry).php) live
  rwa [if_pos (decide_eq_true rfl)] at this

theorem number_free_other {memory : Memory Entry} (live : entry ∈ memory.live)
    (differ : php ≠ (memory.data entry).php) :
    (memory.free entry).number (fun e => e.php = php) = memory.number fun e => e.php = php := by
  have := @Memory.number_free _ memory entry (fun e => e.php = php) live
  rwa [if_neg (by simpa using Ne.symm differ), Nat.add_zero] at this

theorem Shared.findFirst_own (shared : Shared none cached) (own : php ∈ cached.phpMemory.live)
    (refcount : Int) :
    findFirst (cached.phpMemory.write php { cached.phpMemory.data php with refcount := refcount })
      (fun other => (cached.phpMemory.data php).digest = other.digest)
      (cached.phps (config.hvalue (cached.phpMemory.data php).digest)) = some (some php) := by
  have inside : ∀ address ∈ cached.phps (config.hvalue (cached.phpMemory.data php).digest),
      address ∈ cached.phpMemory.live :=
    fun address mem => (shared.linked.mp mem).1
  rw [findFirst_eq (by simpa only [Memory.write_live] using inside)]
  simp only [digest_write]
  have here : php ∈ cached.phps (config.hvalue (cached.phpMemory.data php).digest) :=
    shared.linked.mpr ⟨own, rfl⟩
  cases found : (cached.phps (config.hvalue (cached.phpMemory.data php).digest)).find?
      fun address => (cached.phpMemory.data php).digest =
        (cached.phpMemory.data address).digest with
  | none =>
    have := List.find?_eq_none.mp found php here
    exact absurd (decide_eq_true rfl) this
  | some other =>
    have same : (cached.phpMemory.data php).digest = (cached.phpMemory.data other).digest := by
      simpa using List.find?_some found
    rw [shared.digest own (inside other (List.mem_of_find?_eq_some found)) same]

theorem Shared.release (shared : Shared none cached) (live : entry ∈ cached.entryMemory.live)
    (isPhp : (cached.entryMemory.data entry).php = php)
    (more : (cached.phpMemory.data php).refcount - 1 ≠ 0) :
    Shared none { cached with
      entryMemory := cached.entryMemory.free entry
      phpMemory := cached.phpMemory.write php { cached.phpMemory.data php with
        refcount := (cached.phpMemory.data php).refcount - 1 } } := by
  subst isPhp
  have counted := shared.refcount (shared.entryPhp live)
  have less := number_free_own live
  constructor
  · exact fun mem => shared.entryPhp (Finset.mem_of_mem_erase mem)
  · intro slot other
    simp only [digest_write]
    exact shared.linked
  · exact shared.nodup
  · intro one other oneLive otherLive same
    simp only [digest_write] at same
    exact shared.digest oneLive otherLive same
  · intro other otherLive
    by_cases here : other = (cached.entryMemory.data entry).php
    · subst here
      simp only [Memory.write_data_self]
      omega
    · simp only [Memory.write_data_of_ne here, number_free_other live here]
      exact shared.refcount otherLive
  · intro other otherLive unused
    by_cases here : other = (cached.entryMemory.data entry).php
    · subst here
      simp only [Memory.write_data_self]
      exact more
    · simp only [Memory.write_data_of_ne here]
      exact shared.used otherLive unused
  · exact shared.removals

theorem Shared.unlink (shared : Shared none cached) (live : entry ∈ cached.entryMemory.live)
    (isPhp : (cached.entryMemory.data entry).php = php)
    (last : (cached.phpMemory.data php).refcount - 1 = 0) :
    Shared none { cached with
      entryMemory := cached.entryMemory.free entry
      phpMemory := (cached.phpMemory.write php { cached.phpMemory.data php with
        refcount := (cached.phpMemory.data php).refcount - 1 }).free php
      phps := update cached.phps (config.hvalue (cached.phpMemory.data php).digest)
        ((cached.phps (config.hvalue (cached.phpMemory.data php).digest)).erase php)
      removals := (php, php) :: cached.removals } := by
  subst isPhp
  have counted := shared.refcount (shared.entryPhp live)
  have less := number_free_own live
  have gone : ∀ e ∈ (cached.entryMemory.free entry).live,
      (cached.entryMemory.data e).php ≠ (cached.entryMemory.data entry).php := by
    intro e mem same
    have := @Memory.number_pos _ (cached.entryMemory.free entry) e
      (fun e => e.php = (cached.entryMemory.data entry).php) mem (decide_eq_true same)
    omega
  constructor
  · intro e mem
    exact Finset.mem_erase.mpr
      ⟨gone e mem, shared.entryPhp (Finset.mem_of_mem_erase mem)⟩
  · intro slot other
    simp only [Memory.free_live, Memory.free_data, Finset.mem_erase, digest_write]
    by_cases here : slot = config.hvalue
        (cached.phpMemory.data (cached.entryMemory.data entry).php).digest
    · subst here
      rw [update_self, (shared.nodup _).mem_erase_iff, shared.linked]
      exact and_assoc.symm
    · rw [update_of_ne here, shared.linked]
      refine ⟨fun ⟨otherLive, own⟩ => ⟨⟨?_, otherLive⟩, own⟩,
        fun ⟨⟨_, otherLive⟩, own⟩ => ⟨otherLive, own⟩⟩
      rintro rfl
      exact here own.symm
  · intro slot
    dsimp only
    by_cases here : slot = config.hvalue
        (cached.phpMemory.data (cached.entryMemory.data entry).php).digest
    · subst here
      rw [update_self]
      exact (shared.nodup _).erase _
    · rw [update_of_ne here]
      exact shared.nodup _
  · intro one other oneLive otherLive same
    simp only [Memory.free_live, Memory.free_data, Finset.mem_erase, digest_write]
      at oneLive otherLive same
    exact shared.digest oneLive.2 otherLive.2 same
  · intro other otherLive
    obtain ⟨differ, otherLive⟩ := Finset.mem_erase.mp otherLive
    simp only [Memory.free_data]
    rw [Memory.write_data_of_ne differ, number_free_other live differ]
    exact shared.refcount otherLive
  · intro other otherLive unused
    obtain ⟨differ, otherLive⟩ := Finset.mem_erase.mp otherLive
    simp only [Memory.free_data]
    rw [Memory.write_data_of_ne differ]
    exact shared.used otherLive unused
  · exact List.forall_mem_cons.mpr ⟨rfl, shared.removals⟩

theorem entryFreeReal_spec (shared : Shared none cached) (live : entry ∈ cached.entryMemory.live) :
    ∃ cached', entryFreeReal cached entry = some cached' ∧ Shared none cached' ∧
      cached' = { cached with
        entryMemory := cached.entryMemory.free entry
        phpMemory := cached'.phpMemory
        phps := cached'.phps
        removals := cached'.removals } := by
  have own := shared.entryPhp live
  have read := Memory.read_eq_some live
  have readPhp := Memory.read_eq_some own
  by_cases last : (cached.phpMemory.data (cached.entryMemory.data entry).php).refcount - 1 = 0
  · refine ⟨_, ?_, shared.unlink live rfl last, rfl⟩
    simp only [entryFreeReal, phpRelease, read, bind_eq_bind, bind_some, readPhp]
    rw [if_pos last, shared.findFirst_own own]
    rfl
  · refine ⟨_, ?_, shared.release live rfl last, rfl⟩
    simp only [entryFreeReal, phpRelease, read, bind_eq_bind, bind_some, readPhp]
    rw [if_neg last]
    rfl

theorem Shared.congr {unused : Option Nat} (shared : Shared unused cached)
    (live : cached'.entryMemory.live = cached.entryMemory.live)
    (php : ∀ entry, (cached'.entryMemory.data entry).php = (cached.entryMemory.data entry).php)
    (phpMemory : cached'.phpMemory = cached.phpMemory) (phps : cached'.phps = cached.phps)
    (removals : ∀ removal ∈ cached'.removals, removal.1 = removal.2) : Shared unused cached' := by
  have number : ∀ record, cached'.entryMemory.number (fun e => e.php = record) =
      cached.entryMemory.number fun e => e.php = record := by
    intro record
    unfold Memory.number
    rw [live]
    exact congrArg Finset.card (Finset.filter_congr fun entry _ => by simp only [php])
  constructor
  · intro entry mem
    rw [php, phpMemory]
    exact shared.entryPhp (live ▸ mem)
  · rw [phpMemory, phps]
    exact shared.linked
  · rw [phps]
    exact shared.nodup
  · rw [phpMemory]
    exact shared.digest
  · rw [phpMemory]
    intro record mem
    rw [number]
    exact shared.refcount mem
  · rw [phpMemory]
    exact shared.used
  · exact removals

theorem phpStore_spec (shared : Shared none cached) (fresh : php ∉ cached.phpMemory.live)
    {digest : Digest}
    (unknown : ∀ other ∈ cached.phpMemory.live, (cached.phpMemory.data other).digest ≠ digest) :
    Shared (some php) (phpStore cached php digest) := by
  have differ : ∀ {other}, other ∈ cached.phpMemory.live → other ≠ php :=
    fun mem same => fresh (same ▸ mem)
  have kept : ∀ {other}, other ∈ cached.phpMemory.live →
      (cached.phpMemory.allocate php ⟨digest, 0⟩).data other = cached.phpMemory.data other :=
    fun mem => Memory.allocate_data_of_ne (differ mem)
  unfold phpStore
  constructor
  · exact fun mem => Finset.mem_insert_of_mem (shared.entryPhp mem)
  · intro slot other
    dsimp only
    rw [Memory.allocate_live, Finset.mem_insert]
    by_cases here : slot = config.hvalue digest
    · subst here
      rw [update_self, List.mem_cons, shared.linked]
      by_cases own : other = php
      · subst own
        simp only [true_or, Memory.allocate_data_self, and_self]
      · simp only [own, false_or]
        refine and_congr_right fun mem => ?_
        rw [kept mem]
    · rw [update_of_ne here, shared.linked]
      by_cases own : other = php
      · subst own
        simp only [fresh, false_and, true_or, true_and, Memory.allocate_data_self, false_iff]
        exact fun same => here same.symm
      · simp only [own, false_or]
        refine and_congr_right fun mem => ?_
        rw [kept mem]
  · intro slot
    dsimp only
    by_cases here : slot = config.hvalue digest
    · subst here
      rw [update_self]
      exact List.nodup_cons.mpr ⟨fun mem => fresh (shared.linked.mp mem).1, shared.nodup _⟩
    · rw [update_of_ne here]
      exact shared.nodup _
  · intro one other mem member' same
    dsimp only at mem member' same
    rw [Memory.allocate_live, Finset.mem_insert] at mem member'
    rcases mem with rfl | mem <;> rcases member' with rfl | member'
    · rfl
    · rw [Memory.allocate_data_self, kept member'] at same
      exact absurd same.symm (unknown _ member')
    · rw [Memory.allocate_data_self, kept mem] at same
      exact absurd same (unknown _ mem)
    · rw [kept mem, kept member'] at same
      exact shared.digest mem member' same
  · intro other mem
    dsimp only at mem ⊢
    rcases Finset.mem_insert.mp mem with rfl | mem
    · have none : cached.entryMemory.number (fun e => e.php = other) = 0 :=
        Memory.number_eq_zero fun e live => by
          simpa using differ (shared.entryPhp live)
      rw [Memory.allocate_data_self, none]
      rfl
    · rw [kept mem]
      exact shared.refcount mem
  · intro other mem unused
    dsimp only at mem ⊢
    rcases Finset.mem_insert.mp mem with rfl | mem
    · exact absurd rfl unused
    · rw [kept mem]
      exact shared.used mem nofun
  · exact shared.removals

theorem phpFind_spec (shared : Shared none cached) (digest : Digest) :
    (∃ php, phpFind cached digest = some (some php) ∧ php ∈ cached.phpMemory.live) ∨
      phpFind cached digest = some none ∧
        ∀ php ∈ cached.phpMemory.live, (cached.phpMemory.data php).digest ≠ digest := by
  unfold phpFind
  rw [findFirst_eq fun address mem => (shared.linked.mp mem).1]
  cases found : (cached.phps (config.hvalue digest)).find?
      fun address => digest = (cached.phpMemory.data address).digest with
  | some php =>
    exact .inl ⟨php, rfl, (shared.linked.mp (List.mem_of_find?_eq_some found)).1⟩
  | none =>
    refine .inr ⟨rfl, fun php mem same => ?_⟩
    have here : php ∈ cached.phps (config.hvalue digest) :=
      shared.linked.mpr ⟨mem, congrArg config.hvalue same⟩
    exact List.find?_eq_none.mp found php here (decide_eq_true same.symm)

theorem not_mem_of_allocates {α : Type} {memory : Memory α} {room : Option Nat} {address : Nat}
    (allocated : allocates memory room = some address) : address ∉ memory.live := by
  have := (Option.filter_eq_some_iff.mp allocated).2
  simpa using this

theorem entryEqual_comm (entry1 entry2 : Key) :
    entryEqual entry1 entry2 = entryEqual entry2 entry1 := by
  unfold entryEqual
  have files : (entry1.inode = entry2.inode ∧ entry1.device = entry2.device) ↔
      (entry2.inode = entry1.inode ∧ entry2.device = entry1.device) :=
    and_congr eq_comm eq_comm
  have both : (entry1.inode ≠ 0 ∧ entry2.inode ≠ 0 ∧
      ¬ (entry1.inode = entry2.inode ∧ entry1.device = entry2.device)) ↔
      (entry2.inode ≠ 0 ∧ entry1.inode ≠ 0 ∧
      ¬ (entry2.inode = entry1.inode ∧ entry2.device = entry1.device)) := by
    rw [files]
    exact and_left_comm
  simp only [both, eq_comm]

theorem mem_update_cons {entries : Fin config.slots → List Nat} {any : Fin config.slots} {e : Nat}
    (mem : e ∈ update entries slot (entry :: entries slot) any) :
    e = entry ∧ any = slot ∨ e ∈ entries any := by
  by_cases here : any = slot
  · subst here
    rw [update_self] at mem
    rcases List.mem_cons.mp mem with own | mem
    · exact .inl ⟨own, rfl⟩
    · exact .inr mem
  · rw [update_of_ne here] at mem
    exact .inr mem

theorem mem_update_of_mem {entries : Fin config.slots → List Nat} {any : Fin config.slots} {e : Nat}
    (mem : e ∈ entries any) : e ∈ update entries slot (entry :: entries slot) any := by
  by_cases here : any = slot
  · subst here
    rw [update_self]
    exact .tail _ mem
  · rwa [update_of_ne here]

theorem Linked.store (linked : Linked none cached) (fresh : entry ∉ cached.entryMemory.live)
    {record : Entry} (unheld : record.refcount = 0)
    (lone : ∀ other ∈ cached.entries slot,
      entryEqual record.key (cached.entryMemory.data other).key = false)
    (phpMemory : Memory Php) :
    Linked none { cached with
      entryMemory := cached.entryMemory.allocate entry record
      entries := update cached.entries slot (entry :: cached.entries slot)
      entriesCount := cached.entriesCount + 1
      phpMemory := phpMemory } := by
  have notLinked : ∀ slot, entry ∉ cached.entries slot :=
    fun _ mem => fresh (linked.linked mem)
  have kept : ∀ {other}, other ∈ cached.entryMemory.live →
      (cached.entryMemory.allocate entry record).data other = cached.entryMemory.data other :=
    fun mem => Memory.allocate_data_of_ne fun same => fresh (same ▸ mem)
  constructor
  · intro any e mem
    rcases mem_update_cons mem with ⟨rfl, -⟩ | mem
    · exact Finset.mem_insert_self _ _
    · exact Finset.mem_insert_of_mem (linked.linked mem)
  · exact fun mem => Finset.mem_insert_of_mem (linked.deleted mem)
  · exact nofun
  · intro e mem
    rcases Finset.mem_insert.mp mem with rfl | mem
    · exact .inl ⟨slot, by simp only [update_self, List.mem_cons_self]⟩
    · rcases linked.owned mem with ⟨any, before⟩ | rest
      · exact .inl ⟨any, mem_update_of_mem before⟩
      · exact .inr rest
  · intro any
    dsimp only
    by_cases here : any = slot
    · subst here
      rw [update_self]
      exact List.nodup_cons.mpr ⟨notLinked _, linked.chainNodup _⟩
    · rw [update_of_ne here]
      exact linked.chainNodup any
  · intro one other e mem member'
    rcases mem_update_cons mem with ⟨rfl, rfl⟩ | before <;>
      rcases mem_update_cons member' with ⟨own, rfl⟩ | before'
    · rfl
    · exact absurd before' (notLinked _)
    · exact absurd (own ▸ before) (notLinked _)
    · exact linked.oneSlot before before'
  · exact linked.deletesNodup
  · intro any e mem inDeletes
    rcases mem_update_cons mem with ⟨rfl, -⟩ | mem
    · exact fresh (linked.deleted inDeletes)
    · exact linked.notBoth mem inDeletes
  · intro any e other mem member' equal
    dsimp only at equal
    rcases mem_update_cons mem with ⟨rfl, rfl⟩ | before <;>
      rcases mem_update_cons member' with ⟨own', here⟩ | before'
    · exact own'.symm
    · rw [Memory.allocate_data_self, kept (linked.linked before'), lone other before'] at equal
      cases equal
    · subst own' here
      rw [Memory.allocate_data_self, kept (linked.linked before), entryEqual_comm,
        lone e before] at equal
      cases equal
    · rw [kept (linked.linked before), kept (linked.linked before')] at equal
      exact linked.unequal before before' equal
  · intro e mem
    dsimp only
    rcases Finset.mem_insert.mp mem with rfl | mem
    · rw [Memory.allocate_data_self, List.count_eq_zero.mpr]
      · exact unheld
      · intro held
        obtain ⟨⟨pid, e⟩, onStack, rfl⟩ := List.mem_map.mp held
        exact fresh (linked.held onStack)
    · rw [kept mem]
      exact linked.refcount mem
  · exact fun mem => Finset.mem_insert_of_mem (linked.held mem)
  · dsimp only
    rw [sum_update, linked.entriesCount, List.length_cons]
    omega
  · exact linked.deletesCount

theorem Shared.store {unused : Option Nat} (shared : Shared unused cached)
    (own : unused = none ∨ unused = some php) (live : php ∈ cached.phpMemory.live)
    (fresh : entry ∉ cached.entryMemory.live) {record : Entry} (points : record.php = php)
    (entries : Fin config.slots → List Nat) (entriesCount : Int) :
    Shared none { cached with
      entryMemory := cached.entryMemory.allocate entry record
      entries := entries
      entriesCount := entriesCount
      phpMemory := cached.phpMemory.write php { cached.phpMemory.data php with
        refcount := (cached.phpMemory.data php).refcount + 1 } } := by
  have number : ∀ other,
      (cached.entryMemory.allocate entry record).number (fun e => e.php = other) =
      cached.entryMemory.number (fun e => e.php = other) + if php = other then 1 else 0 := by
    intro other
    rw [Memory.number_allocate fresh]
    simp only [points, decide_eq_true_eq]
  constructor
  · intro e mem
    rcases Finset.mem_insert.mp mem with rfl | mem
    · dsimp only
      rw [Memory.allocate_data_self, points]
      exact live
    · have other : e ≠ entry := fun same => fresh (same ▸ mem)
      dsimp only
      rw [Memory.allocate_data_of_ne other]
      exact shared.entryPhp mem
  · intro any other
    simp only [digest_write, Memory.write_live]
    exact shared.linked
  · exact shared.nodup
  · intro one other mem member' same
    simp only [digest_write] at same
    exact shared.digest mem member' same
  · intro other mem
    dsimp only
    rw [number]
    by_cases here : other = php
    · subst here
      rw [Memory.write_data_self, if_pos rfl]
      have := shared.refcount live
      push_cast
      omega
    · rw [Memory.write_data_of_ne here, if_neg (Ne.symm here), Nat.add_zero]
      exact shared.refcount mem
  · intro other mem _
    dsimp only
    by_cases here : other = php
    · subst here
      rw [Memory.write_data_self]
      have := shared.refcount live
      dsimp only
      omega
    · rw [Memory.write_data_of_ne here]
      refine shared.used mem fun same => ?_
      rcases own with none | some
      · rw [none] at same
        cases same
      · rw [some] at same
        exact here (Option.some.inj same).symm
  · exact shared.removals

theorem entryStore_spec {unused : Option Nat} (linked : Linked none cached)
    (shared : Shared unused cached) (own : unused = none ∨ unused = some php)
    (live : php ∈ cached.phpMemory.live) (fresh : entry ∉ cached.entryMemory.live) {key : Key}
    (lone : ∀ other ∈ cached.entries slot,
      entryEqual key (cached.entryMemory.data other).key = false) :
    ∃ cached', entryStore requestTime cached slot entry key php = some cached' ∧
      Linked none cached' ∧ Shared none cached' ∧ entry ∈ cached'.entryMemory.live := by
  refine ⟨{ cached with
    entryMemory := cached.entryMemory.allocate entry ⟨key, php, 0, requestTime, 0⟩
    entries := update cached.entries slot (entry :: cached.entries slot)
    entriesCount := cached.entriesCount + 1
    phpMemory := cached.phpMemory.write php { cached.phpMemory.data php with
      refcount := (cached.phpMemory.data php).refcount + 1 } },
    ?_, ?_, ?_, Finset.mem_insert_self _ _⟩
  · simp only [entryStore, phpAddref, Memory.read_eq_some live, bind_eq_bind,
      bind_some]
  · exact linked.store fresh rfl lone _
  · exact shared.store own live fresh rfl _ _

end PhpExts.XCache.PhpCache
