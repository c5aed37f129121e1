import PhpExts.Redis.ClusterSlots
import Mathlib

/-!
# The reply to `CLUSTER SLOTS`

`cluster_map_slots` goes through the tree of replies that a server has sent. An element is two bounds, a
master and its slaves, and a master or slave is a host and a port. Two macros validate some of the tree;
they look at elements without asking whether they are there, and at the type of a host, but a host of
the type of a bulk string may be missing too. The bounds are cast to `unsigned short` and from there to
`short`, before the slots between them are written.

`safe_iff_agrees` says for which trees the mapping is safe and exact: whatever it looks at is there, the
bounds as `short` are slots, names fit into their array, and for every slot the last range that
contains it names the same master with and without the casts.

Nodes are known by their names, `host:port`.
-/

namespace PhpExts.Redis.ClusterMap

open PhpExts.Redis.Slots (printNumber unsignedShort)

/-- `clusterReply`, as `cluster_multibulk_resp_recursive` makes it: the number of a `TYPE_INT`, the
string of a `TYPE_BULK` unless its length is negative, the elements of a `TYPE_MULTIBULK` with their
number. The array may be missing or have holes. -/
inductive Reply where
  | line
  | error
  | int (integer : Int)
  | bulk (str : Option (List UInt8))
  | multibulk (elements : Nat) (element : List (Option Reply))

/-- `r->elements`. -/
def Reply.elements : Reply → Nat
  | .multibulk elements _ => elements
  | _ => 0

/-- `r->element[i]`. -/
def Reply.element (r : Reply) (i : Nat) : Option Reply :=
  match r with
  | .multibulk _ element => (element[i]?).join
  | _ => none

inductive Check (α : Type) where
  | absent
  | invalid
  | valid (value : α)

/-- `r->type == TYPE_INT`, with the number. -/
def checkInt : Option Reply → Check Int
  | none => .absent
  | some (.int integer) => .valid integer
  | some _ => .invalid

/-- `r->type == TYPE_BULK`, with the string. -/
def checkBulk : Option Reply → Check (Option (List UInt8))
  | none => .absent
  | some (.bulk str) => .valid str
  | some _ => .invalid

def Check.andThen {α β : Type} (check : Check α) (next : α → Check β) : Check β :=
  match check with
  | .absent => .absent
  | .invalid => .invalid
  | .valid value => next value

/-- `VALIDATE_SLOTS_INNER`, with the host and the port. -/
def validateInner : Option Reply → Check (Option (List UInt8) × Int)
  | none => .absent
  | some (.multibulk elements element) =>
    if 2 ≤ elements then
      (checkBulk (Reply.element (.multibulk elements element) 0)).andThen fun host =>
        (checkInt (Reply.element (.multibulk elements element) 1)).andThen fun port =>
          .valid (host, port)
    else .invalid
  | some _ => .invalid

/-- `VALIDATE_SLOTS_OUTER`, with the bounds. -/
def validateOuter (r : Reply) : Check (Int × Int) :=
  if 3 ≤ r.elements then
    (checkInt (r.element 0)).andThen fun low =>
      (checkInt (r.element 1)).andThen fun high => .valid (low, high)
  else .invalid

structure Range where
  low : Int
  high : Int
  host : Option (List UInt8)
  port : Int

def readRange : Option Reply → Check Range
  | none => .absent
  | some r =>
    (validateOuter r).andThen fun bounds =>
      (validateInner (r.element 2)).andThen fun master =>
        .valid ⟨bounds.1, bounds.2, master.1, master.2⟩

/-- The elements from the one with number `j` on. -/
def Reply.from (r : Reply) (j : Nat) : List (Option Reply) :=
  (List.range' j (r.elements - j)).map r.element

/-- A cast to `unsigned short` and one to `short`. -/
def short (n : Int) : Int :=
  if n % 2 ^ 16 < 2 ^ 15 then n % 2 ^ 16 else n % 2 ^ 16 - 2 ^ 16

/-- `%s`, in the `snprintf` of PHP. -/
def hostText : Option (List UInt8) → List UInt8
  | none => [40, 110, 117, 108, 108, 41]
  | some host => host.takeWhile (· != 0)

/-- `%s:%d`, of the host and the cast port. -/
def Range.key (range : Range) : List UInt8 :=
  hostText range.host ++ 58 :: printNumber (unsignedShort range.port)

/-- What is done that is undefined: something absent is looked at, a slot outside of the array is
written, or the name of a node does not fit into the array of 1024 bytes it is read from. -/
inductive Fault where
  | absent
  | slot
  | key
  deriving DecidableEq

/-- `redisCluster`: the names in `nodes`, and the names of the nodes in `master`. -/
structure Cluster where
  nodes : List UInt8 → Bool
  master : Nat → Option (List UInt8)

inductive Outcome where
  | crash (fault : Fault)
  | ret (code : Int) (c : Cluster)

def checkSlaves : List (Option Reply) → Check Unit
  | [] => .valid ()
  | r3 :: rest =>
    (validateInner r3).andThen fun slave =>
      match slave.1 with
      | none => .absent
      | some _ => checkSlaves rest

def Cluster.register (c : Cluster) (range : Range) : Cluster :=
  { c with nodes := Function.update c.nodes range.key true }

def Cluster.attach (c : Cluster) (range : Range) : Cluster :=
  { c with master := fun slot =>
      if short range.low ≤ slot ∧ slot ≤ short range.high then some range.key else c.master slot }

def Range.Outside (range : Range) : Prop :=
  short range.low ≤ short range.high ∧ (short range.low < 0 ∨ 16384 ≤ short range.high)

instance (range : Range) : Decidable range.Outside := inferInstanceAs (Decidable (_ ∧ (_ ∨ _)))

def slavesOf : Option Reply → List (Option Reply)
  | none => []
  | some r => r.from 3

/-- The loop of `cluster_map_slots`. -/
def mapLoop : List (Option Reply) → Cluster → Outcome
  | [], c => .ret 0 c
  | r2 :: rest, c =>
    match readRange r2 with
    | .absent => .crash .absent
    | .invalid => .ret (-1) c
    | .valid range =>
      if 1024 ≤ range.key.length then .crash .key
      else if range.host = none ∧ c.nodes range.key = false then .crash .absent
      else
        match checkSlaves (slavesOf r2) with
        | .absent => .crash .absent
        | .invalid => .ret (-1) (c.register range)
        | .valid () =>
          if range.Outside then .crash .slot
          else mapLoop rest ((c.register range).attach range)

def clusterMapSlots (c : Cluster) (r : Reply) : Outcome := mapLoop (r.from 0) c

def announced (items : List (Option Reply)) : List Range :=
  items.filterMap fun item =>
    match readRange item with
    | .valid range => some range
    | _ => none

def nodeName (host : List UInt8) (port : Int) : List UInt8 :=
  host ++ 58 :: (if port < 0 then 45 :: printNumber port.natAbs else printNumber port.natAbs)

def lastRange (ranges : List Range) (slot : Nat) : Option Range :=
  ranges.reverse.find? fun range => range.low ≤ slot ∧ slot ≤ range.high

def Entry (c : Cluster) (ranges : List Range) (slot : Nat) (entry : Option (List UInt8)) : Prop :=
  match lastRange ranges slot with
  | none => entry = c.master slot
  | some range => ∃ host, range.host = some host ∧ entry = some (nodeName host range.port)

def SafeExact (c : Cluster) (r : Reply) : Prop :=
  match clusterMapSlots c r with
  | .crash _ => False
  | .ret code next =>
    code = 0 → ∀ slot < 16384, Entry c (announced (r.from 0)) slot (next.master slot)

/-- What is looked at is there, up to the first element that is not valid: hosts of masters are there
unless their name is known already, names fit, and the bounds as `short` are slots. -/
def Harmless : List (Option Reply) → (List UInt8 → Bool) → Prop
  | [], _ => True
  | r2 :: rest, known =>
    match readRange r2 with
    | .absent => False
    | .invalid => True
    | .valid range =>
      range.key.length < 1024 ∧ (range.host = none → known range.key = true) ∧
        match checkSlaves (slavesOf r2) with
        | .absent => False
        | .invalid => True
        | .valid () => ¬range.Outside ∧ Harmless rest (Function.update known range.key true)

def AllValid (items : List (Option Reply)) : Prop :=
  ∀ item ∈ items, (∃ range, readRange item = .valid range) ∧ checkSlaves (slavesOf item) = .valid ()

def lastCast (ranges : List Range) (slot : Nat) : Option Range :=
  ranges.reverse.find? fun range => short range.low ≤ slot ∧ slot ≤ short range.high

def Agrees (c : Cluster) (ranges : List Range) (slot : Nat) : Prop :=
  Entry c ranges slot
    (match lastCast ranges slot with
    | none => c.master slot
    | some range => some range.key)

section

variable {c : Cluster} {items : List (Option Reply)}

def castEntry (c : Cluster) (ranges : List Range) (slot : Nat) : Option (List UInt8) :=
  match lastCast ranges slot with
  | none => c.master slot
  | some range => some range.key

theorem castEntry_cons (c : Cluster) (range : Range) (ranges : List Range) (slot : Nat) :
    castEntry c (range :: ranges) slot =
      castEntry ((c.register range).attach range) ranges slot := by
  rw [castEntry, castEntry, lastCast, lastCast, List.reverse_cons, List.find?_append]
  cases ranges.reverse.find? fun range => short range.low ≤ slot ∧ slot ≤ short range.high with
  | some last => rfl
  | none =>
    rw [Option.none_or, List.find?_singleton]
    by_cases inside : short range.low ≤ slot ∧ slot ≤ short range.high
    · rw [if_pos (by simpa using inside)]
      simp only [Cluster.attach, if_pos inside]
    · rw [if_neg (by simpa using inside)]
      simp only [Cluster.attach, if_neg inside]
      rfl

/-- What is known of the loop: it ends exactly if it is harmless, and succeeds exactly if all elements
are valid, with the entries of the cast ranges. -/
def Ends (items : List (Option Reply)) (c : Cluster) : Outcome → Prop
  | .crash _ => ¬Harmless items c.nodes
  | .ret code next => Harmless items c.nodes ∧ (code = 0 ↔ AllValid items) ∧
      (code = 0 → ∀ slot, next.master slot = castEntry c (announced items) slot)

theorem ends_invalid {r2 : Option Reply} {rest : List (Option Reply)} {next : Cluster}
    (harmless : Harmless (r2 :: rest) c.nodes)
    (wrong : ¬((∃ range, readRange r2 = .valid range) ∧ checkSlaves (slavesOf r2) = .valid ())) :
    Ends (r2 :: rest) c (.ret (-1) next) := by
  refine ⟨harmless, ⟨fun same => (by cases same), fun all => ?_⟩, fun same => (by cases same)⟩
  exact absurd (all r2 (.head _)) wrong

/-- **The induction is on the elements; each is read, and its range is in front of the others.** -/
theorem mapLoop_ends (items : List (Option Reply)) (c : Cluster) :
    Ends items c (mapLoop items c) := by
  induction items generalizing c with
  | nil =>
    refine ⟨trivial, ⟨fun _ item mem => absurd mem List.not_mem_nil, fun _ => rfl⟩, ?_⟩
    intro _ slot
    rfl
  | cons r2 rest ih =>
    rw [mapLoop]
    cases read : readRange r2 with
    | absent =>
      intro harmless
      rw [Harmless, read] at harmless
      exact harmless
    | invalid =>
      apply ends_invalid
      · rw [Harmless, read]
        trivial
      · rintro ⟨⟨range, valid⟩, -⟩
        rw [read] at valid
        cases valid
    | valid range =>
      dsimp only
      by_cases long : 1024 ≤ range.key.length
      · rw [if_pos long]
        intro harmless
        rw [Harmless, read] at harmless
        exact absurd harmless.1 (Nat.not_lt.mpr long)
      rw [if_neg long]
      by_cases missing : range.host = none ∧ c.nodes range.key = false
      · rw [if_pos missing]
        intro harmless
        rw [Harmless, read] at harmless
        have known := harmless.2.1 missing.1
        rw [missing.2] at known
        cases known
      rw [if_neg missing]
      have fits : range.key.length < 1024 := Nat.lt_of_not_le long
      have known : range.host = none → c.nodes range.key = true := fun none_ =>
        (Bool.not_eq_false _).mp fun unknown => missing ⟨none_, unknown⟩
      cases slaves : checkSlaves (slavesOf r2) with
      | absent =>
        intro harmless
        rw [Harmless, read] at harmless
        have := harmless.2.2
        rw [slaves] at this
        exact this
      | invalid =>
        apply ends_invalid
        · rw [Harmless, read]
          refine ⟨fits, known, ?_⟩
          rw [slaves]
          trivial
        · rintro ⟨-, valid⟩
          rw [slaves] at valid
          cases valid
      | valid nothing =>
        dsimp only
        by_cases outside : range.Outside
        · rw [if_pos outside]
          intro harmless
          rw [Harmless, read] at harmless
          have := harmless.2.2
          rw [slaves] at this
          exact this.1 outside
        rw [if_neg outside]
        have rest_ := ih ((c.register range).attach range)
        have harmless_iff : Harmless (r2 :: rest) c.nodes ↔
            Harmless rest ((c.register range).attach range).nodes := by
          rw [Harmless, read]
          constructor
          · rintro ⟨-, -, both⟩
            rw [slaves] at both
            exact both.2
          · intro harmless
            refine ⟨fits, known, ?_⟩
            rw [slaves]
            exact ⟨outside, harmless⟩
        have ranges : announced (r2 :: rest) = range :: announced rest := by
          rw [announced, List.filterMap_cons, read]
          rfl
        cases ended : mapLoop rest ((c.register range).attach range) with
        | crash fault =>
          rw [ended] at rest_
          intro harmless
          exact rest_ (harmless_iff.mp harmless)
        | ret code next =>
          rw [ended] at rest_
          obtain ⟨harmless, success, entries⟩ := rest_
          refine ⟨harmless_iff.mpr harmless, ?_, ?_⟩
          · rw [success, AllValid, AllValid, List.forall_mem_cons]
            exact ⟨fun all => ⟨⟨⟨range, read⟩, slaves⟩, all⟩, fun all => all.2⟩
          · intro zero slot
            rw [entries zero slot, ranges, castEntry_cons]

end

structure Range.Plain (range : Range) : Prop where
  low : 0 ≤ range.low ∧ range.low < 16384
  high : 0 ≤ range.high ∧ range.high < 16384
  port : 0 ≤ range.port ∧ range.port < 65536
  host : ∃ host, range.host = some host ∧ ∀ byte ∈ host, byte ≠ 0

theorem short_eq {n : Int} (slot : 0 ≤ n ∧ n < 16384) : short n = n := by
  have same : n % 2 ^ 16 = n := Int.emod_eq_of_lt slot.1 (by omega)
  rw [short, same, if_pos (by omega)]

theorem Range.Plain.key_eq {range : Range} (plain : range.Plain) {host : List UInt8}
    (there : range.host = some host) (whole : ∀ byte ∈ host, byte ≠ 0) :
    range.key = nodeName host range.port := by
  have cast : unsignedShort range.port = range.port.natAbs := by
    have := plain.port
    rw [unsignedShort]
    omega
  have text : hostText range.host = host := by
    rw [there, hostText, List.takeWhile_eq_self_iff]
    intro byte mem
    exact bne_iff_ne.mpr (whole byte mem)
  rw [Range.key, text, cast, nodeName, if_neg (Int.not_lt.mpr plain.port.1)]

/-- The casts change nothing about plain ranges. -/
theorem agrees_of_plain {c : Cluster} {ranges : List Range} (plain : ∀ range ∈ ranges, range.Plain)
    (slot : Nat) : Agrees c ranges slot := by
  have last_eq : lastCast ranges slot = lastRange ranges slot := by
    apply List.find?_congr
    intro range mem
    have bounds := plain range (List.mem_reverse.mp mem)
    rw [short_eq bounds.low, short_eq bounds.high]
  rw [Agrees, Entry, last_eq]
  cases found : lastRange ranges slot with
  | none => rfl
  | some range =>
    dsimp only
    have mem : range ∈ ranges := List.mem_reverse.mp (List.mem_of_find?_eq_some found)
    obtain ⟨host, there, whole⟩ := (plain range mem).host
    refine ⟨host, there, ?_⟩
    rw [(plain range mem).key_eq there whole]

/-- The mapping is safe and exact exactly if it is harmless and, when all elements are valid, the casts
change the last master of no slot. -/
theorem safe_iff_agrees (c : Cluster) (r : Reply) : SafeExact c r ↔ Harmless (r.from 0) c.nodes ∧
      (AllValid (r.from 0) → ∀ slot < 16384, Agrees c (announced (r.from 0)) slot) := by
  have ends := mapLoop_ends (r.from 0) c
  rw [SafeExact, clusterMapSlots]
  cases ended : mapLoop (r.from 0) c with
  | crash fault =>
    rw [ended] at ends
    exact ⟨False.elim, fun both => ends both.1⟩
  | ret code next =>
    rw [ended] at ends
    obtain ⟨harmless, success, entries⟩ := ends
    constructor
    · intro exact_
      refine ⟨harmless, fun all slot slot_lt => ?_⟩
      have zero := success.mpr all
      have entry := exact_ zero slot slot_lt
      rw [entries zero slot] at entry
      exact entry
    · rintro ⟨-, agrees⟩ zero slot slot_lt
      rw [entries zero slot]
      exact agrees (success.mp zero) slot slot_lt

/-- A range from 65536 to 65541 is cast to one from 0 to 5. -/
theorem not_safeExact : ¬∀ c r, SafeExact c r := by
  intro safe
  have exact_ := safe ⟨fun _ => false, fun _ => none⟩
    (.multibulk 1 [some (.multibulk 3 [some (.int 65536), some (.int 65541),
      some (.multibulk 2 [some (.bulk (some [104])), some (.int 7000)])])])
  have ends : clusterMapSlots ⟨fun _ => false, fun _ => none⟩
      (.multibulk 1 [some (.multibulk 3 [some (.int 65536), some (.int 65541),
        some (.multibulk 2 [some (.bulk (some [104])), some (.int 7000)])])]) =
      .ret 0 ((Cluster.register ⟨fun _ => false, fun _ => none⟩ ⟨65536, 65541, some [104], 7000⟩).attach
        ⟨65536, 65541, some [104], 7000⟩) := rfl
  rw [SafeExact, ends] at exact_
  have entry := exact_ rfl 0 (by decide)
  cases entry

end PhpExts.Redis.ClusterMap
