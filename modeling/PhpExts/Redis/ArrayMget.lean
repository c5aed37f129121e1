import Mathlib

/-!
# `RedisArray::mget`

The keys of a multi-get are spread over the nodes of the array, every node that has keys is
asked once, and what the nodes answer is put back under the positions of the keys.

The values are those of the owning nodes, in order, exactly if every key has a node and
no node answers with an array of another length (`regroups_iff`).
-/

namespace PhpExts.Redis

/-! ## The node of a key -/

structure ContinuumPoint where
  value : Nat
  index : Int

/-- `RedisArray`. The functions of the user and the hash algorithm are given by what they
return; a distributor that returns no number has returned `-1`. -/
structure RedisArray where
  count : Nat
  extractor : Option (List UInt8 → Option (List UInt8))
  distributor : Option (List UInt8 → Int)
  algorithm : Option (List UInt8 → Nat)
  continuum : Option (List ContinuumPoint)

/-- `strchr`, as what stands before the byte and behind it. -/
def strchr (string : List UInt8) (byte : UInt8) : Option (List UInt8 × List UInt8) :=
  match string.dropWhile (· != byte) with
  | [] => none
  | _ :: behind => some (string.takeWhile (· != byte), behind)

def raExtractKey (ra : RedisArray) (key : List UInt8) : Option (List UInt8) :=
  match ra.extractor with
  | some call => call key
  | none =>
    match strchr (key.takeWhile (· != 0)) 123 with
    | none => some key
    | some (_, start) =>
      match strchr start 125 with
      | none => some key
      | some (part, _) => some part

/-- `crc32tab`, by its polynomial. -/
def crc32tab (index : Nat) : Nat :=
  (List.range 8).foldl (fun crc _ => if crc % 2 = 1 then crc / 2 ^^^ 0xEDB88320 else crc / 2) index

/-- `CRC32`. -/
def crc32 (crc : Nat) (byte : UInt8) : Nat :=
  crc / 256 ^^^ crc32tab ((crc ^^^ byte.toNat) % 256)

def ringSearch (points : List ContinuumPoint) (ret left right : Nat) : Nat :=
  if left < right then
    let i := (left + right) / 2
    if ((points[i]?.map ContinuumPoint.value).getD 0) < ret then ringSearch points ret (i + 1) right
    else ringSearch points ret left i
  else right
termination_by right - left

/-- `ra_find_node`: the position of the node, which is not checked unless it is the user's. -/
def raFindNode (ra : RedisArray) (key : List UInt8) : Option Int := do
  let out ← raExtractKey ra key
  match ra.distributor with
  | some call =>
    let pos := call key
    if pos < 0 ∨ ra.count ≤ pos then none else some pos
  | none =>
    let ret :=
      match ra.algorithm with
      | some digest => digest out % 0xffffffff
      | none => out.foldl crc32 0xffffffff
    match ra.continuum with
    | some points =>
      let right := ringSearch points ret 0 points.length
      (points[if right = points.length then 0 else right]?).map ContinuumPoint.index
    | none => some ((ret ^^^ 0xffffffff) * ra.count / 0xffffffff : Nat)

inductive Key where
  | string (bytes : List UInt8)
  | long (value : Int)
  | other
  deriving DecidableEq

def Key.lookup : Key → Option (List UInt8)
  | .string bytes => some bytes
  | .long value => some ((toString value).toList.map fun digit => UInt8.ofNat digit.toNat)
  | .other => none

inductive Value where
  | string (bytes : List UInt8)
  | false
  deriving DecidableEq

inductive Reply where
  | array (elements : List (Option (List UInt8)))
  | other

def mbulkReplyLoop (elements : List (Option (List UInt8))) : List Value :=
  elements.map fun line =>
    match line with
    | some bytes => .string bytes
    | none => .false

/-- The result of the call. Without a node `pos[i]` is read unset, and a position outside the
array writes outside of `argc_each`. -/
inductive Outcome where
  | values (values : List Value)
  | failed
  | undefined
  deriving DecidableEq

def associate (ra : RedisArray) : List Key → Except Outcome (List Nat)
  | [] => .ok []
  | data :: keys =>
    match data.lookup with
    | none => .error .failed
    | some keyLookup =>
      match raFindNode ra keyLookup with
      | none => .error .undefined
      | some pos =>
        if 0 ≤ pos ∧ pos < ra.count then do
          let rest ← associate ra keys
          .ok (pos.toNat :: rest)
        else .error .undefined

def argsOf (n : Nat) : List Key → List Nat → List Key
  | argv :: keys, p :: pos => if p ≠ n then argsOf n keys pos else argv :: argsOf n keys pos
  | _, _ => []

def scatter (n : Nat) (reply : List Value) :
    List Nat → Nat → Nat → (Nat → Option Value) → Nat → Option Value
  | [], _, _, temp => temp
  | p :: pos, i, j, temp =>
    if p ≠ n then scatter n reply pos (i + 1) j temp
    else
      match reply[j]? with
      | none => scatter n reply pos (i + 1) (j + 1) temp
      | some cur => scatter n reply pos (i + 1) (j + 1) (Function.update temp i (some cur))

/-- The calls of the nodes; what has been sent, and the array with the values unless a node
has not answered with an array. -/
def callNodes (nodes : Nat → List Key → Reply) (keys : List Key) (pos : List Nat) :
    List Nat → (Nat → Option Value) → List (Nat × List Key) × Option (Nat → Option Value)
  | [], temp => ([], some temp)
  | n :: ns, temp =>
    if pos.count n = 0 then callNodes nodes keys pos ns temp
    else
      match nodes n (argsOf n keys pos) with
      | .other => ([(n, argsOf n keys pos)], none)
      | .array elements =>
        let later := callNodes nodes keys pos ns (scatter n (mbulkReplyLoop elements) pos 0 0 temp)
        ((n, argsOf n keys pos) :: later.1, later.2)

structure Mget where
  sent : List (Nat × List Key)
  outcome : Outcome

/-- `RedisArray::mget`; `nodes` are the answers of the nodes. -/
def mget (ra : RedisArray) (nodes : Nat → List Key → Reply) (keys : List Key) : Mget :=
  if keys.length = 0 then ⟨[], .failed⟩
  else
    match associate ra keys with
    | .error outcome => ⟨[], outcome⟩
    | .ok pos =>
      match callNodes nodes keys pos (List.range ra.count) fun _ => none with
      | (sent, none) => ⟨sent, .failed⟩
      | (sent, some temp) => ⟨sent, .values ((List.range keys.length).filterMap temp)⟩

/-! ## What is asked of it -/

section

variable (ra : RedisArray) (nodes : Nat → List Key → Reply) (keys : List Key)

def nodeOf (key : Key) : Option Nat := do
  let pos ← raFindNode ra (← key.lookup)
  if 0 ≤ pos ∧ pos < ra.count then some pos.toNat else none

def asked (n : Nat) : List Key := keys.filter fun key => nodeOf ra key = some n

def RightLength : Prop :=
  ∀ n, asked ra keys n ≠ [] → ∃ elements, nodes n (asked ra keys n) = .array elements ∧
    elements.length = (asked ra keys n).length

structure InOrder (values : List Value) (sent : List (Nat × List Key)) : Prop where
  length : values.length = keys.length
  value : ∀ {i key n}, keys[i]? = some key → nodeOf ra key = some n →
    ∃ elements, nodes n (asked ra keys n) = .array elements ∧
      values[i]? = (mbulkReplyLoop elements)[(asked ra (keys.take i) n).length]?
  sent : (sent.flatMap fun call => call.2.map (some call.1, ·)).Perm
    (keys.map fun key => (nodeOf ra key, key))

structure Regroups : Prop where
  inOrder : keys ≠ [] → (∀ key ∈ keys, (nodeOf ra key).isSome) → RightLength ra nodes keys →
    ∃ values, (mget ra nodes keys).outcome = .values values ∧
      InOrder ra nodes keys values (mget ra nodes keys).sent
  fails : ¬ (keys ≠ [] ∧ (∀ key ∈ keys, (nodeOf ra key).isSome) ∧ RightLength ra nodes keys) →
    (mget ra nodes keys).outcome = .failed

def Known : List Key → Prop
  | [] => True
  | key :: keys => key.lookup = none ∨ (nodeOf ra key).isSome ∧ Known keys

end

/-! ## The positions -/

variable {ra : RedisArray} {nodes : Nat → List Key → Reply} {keys : List Key}

def place (ra : RedisArray) (key : Key) : Nat := (nodeOf ra key).getD 0

theorem nodeOf_eq_place {key : Key} (some : (nodeOf ra key).isSome) :
    nodeOf ra key = .some (place ra key) := by
  obtain ⟨n, node⟩ := Option.isSome_iff_exists.mp some
  rw [place, node, Option.getD_some]

theorem place_lt {key : Key} (some : (nodeOf ra key).isSome) : place ra key < ra.count := by
  have node := nodeOf_eq_place some
  obtain ⟨keyLookup, -, found⟩ := Option.bind_eq_some_iff.mp node
  obtain ⟨pos, -, inside⟩ := Option.bind_eq_some_iff.mp found
  split_ifs at inside with range
  have := Option.some.inj inside
  omega

theorem associate_cons (key : Key) (keys : List Key) : associate ra (key :: keys) =
      if key.lookup = none then .error .failed
      else if (nodeOf ra key).isSome then (associate ra keys).map (place ra key :: ·)
      else .error .undefined := by
  rw [associate]
  cases bytes : key.lookup with
  | none => rw [if_pos rfl]
  | some keyLookup =>
    rw [if_neg (by simp)]
    dsimp only
    cases found : raFindNode ra keyLookup with
    | none =>
      have none : nodeOf ra key = none := by
        simp only [nodeOf, bytes, Option.bind_eq_bind, Option.bind_some, found,
          Option.bind_none]
      simp only [none, Option.isSome_none, Bool.false_eq_true, if_false]
    | some pos =>
      have node : nodeOf ra key =
          if 0 ≤ pos ∧ pos < ra.count then some pos.toNat else none := by
        simp only [nodeOf, bytes, Option.bind_eq_bind, Option.bind_some, found]
      by_cases range : 0 ≤ pos ∧ pos < ra.count
      · simp only [place, node, range, and_self, if_true, Option.isSome_some, Option.getD_some]
        cases associate ra keys <;> rfl
      · simp only [node, range, if_false, Option.isSome_none, Bool.false_eq_true]

theorem associate_eq_ok (every : ∀ key ∈ keys, (nodeOf ra key).isSome) :
    associate ra keys = .ok (keys.map (place ra)) := by
  induction keys with
  | nil => rfl
  | cons key keys ih =>
    have node := every key (.head _)
    have lookup : ¬ key.lookup = none := by
      intro none
      simp only [nodeOf, none, Option.bind_eq_bind, Option.bind_none, Option.isSome_none,
        Bool.false_eq_true] at node
    rw [associate_cons, if_neg lookup, if_pos node,
      ih fun key mem => every key (.tail _ mem)]
    rfl

theorem associate_eq_failed (known : Known ra keys)
    (missing : ¬ ∀ key ∈ keys, (nodeOf ra key).isSome) : associate ra keys = .error .failed := by
  induction keys with
  | nil => exact absurd (fun _ mem => nomatch mem) missing
  | cons key keys ih =>
    rw [associate_cons]
    rcases known with none | ⟨node, known⟩
    · rw [if_pos none]
    · have others : ¬ ∀ key ∈ keys, (nodeOf ra key).isSome :=
        fun every => missing (List.forall_mem_cons.mpr ⟨node, every⟩)
      by_cases none : key.lookup = none
      · rw [if_pos none]
      · rw [if_neg none, if_pos node, ih known others]
        rfl

theorem associate_eq_undefined (unknown : ¬ Known ra keys) :
    associate ra keys = .error .undefined := by
  induction keys with
  | nil => exact absurd trivial unknown
  | cons key keys ih =>
    simp only [Known, not_or, not_and] at unknown
    obtain ⟨lookup, later⟩ := unknown
    rw [associate_cons, if_neg lookup]
    by_cases node : (nodeOf ra key).isSome
    · rw [if_pos node, ih (later node)]
      rfl
    · rw [if_neg node]

/-! ## Distribution and collection -/

section

variable {f : Key → Nat} {n : Nat}

theorem argsOf_map : argsOf n keys (keys.map f) = keys.filter fun key => f key = n := by
  induction keys with
  | nil => rfl
  | cons key keys ih =>
    rw [List.map_cons, argsOf, List.filter_cons]
    by_cases own : f key = n
    · simp only [own, ne_eq, not_true_eq_false, if_false, decide_true, if_true, ih]
    · simp only [own, ne_eq, not_false_eq_true, if_true, decide_false, Bool.false_eq_true,
        if_false, ih]

theorem count_map : (keys.map f).count n = (keys.filter fun key => f key = n).length := by
  rw [List.count, List.countP_map, List.countP_eq_length_filter]
  rfl

theorem scatter_cons (reply : List Value) (p : Nat) (pos : List Nat) (i j : Nat)
    (temp : Nat → Option Value) : scatter n reply (p :: pos) i j temp = if p = n then
        scatter n reply pos (i + 1) (j + 1) (Function.update temp i (reply[j]?.or (temp i)))
      else scatter n reply pos (i + 1) j temp := by
  rw [scatter]
  by_cases own : p = n
  · rw [if_neg (not_not.mpr own), if_pos own]
    cases reply[j]? with
    | none =>
      rw [Option.none_or, Function.update_eq_self]
    | some cur => rfl
  · rw [if_pos own, if_neg own]

theorem scatter_eq (reply : List Value) (pos : List Nat) (i j k : Nat) (temp : Nat → Option Value) :
    scatter n reply pos i j temp k = if i ≤ k ∧ pos[k - i]? = some n then
        (reply[j + (pos.take (k - i)).count n]?).or (temp k) else temp k := by
  induction pos generalizing i j temp with
  | nil => simp only [scatter, List.getElem?_nil, reduceCtorEq, and_false, if_false]
  | cons p pos ih =>
    rw [scatter_cons]
    rcases Nat.lt_trichotomy k i with before | rfl | later
    · have passed : ¬ i ≤ k := by omega
      have passed' : ¬ i + 1 ≤ k := by omega
      have other : k ≠ i := by omega
      by_cases own : p = n
      · rw [if_pos own, ih, if_neg fun both => passed' both.1, Function.update_of_ne other,
          if_neg fun both => passed both.1]
      · rw [if_neg own, ih, if_neg fun both => passed' both.1, if_neg fun both => passed both.1]
    · have passed : ¬ k + 1 ≤ k := by omega
      rw [Nat.sub_self, List.getElem?_cons_zero, List.take_zero, List.count_nil]
      by_cases own : p = n
      · rw [if_pos own, ih, if_neg fun both => passed both.1, Function.update_self,
          if_pos ⟨Nat.le_refl k, congrArg some own⟩, Nat.add_zero]
      · rw [if_neg own, ih, if_neg fun both => passed both.1,
          if_neg fun both => own (Option.some.inj both.2)]
    · obtain ⟨m, rfl⟩ : ∃ m, k = i + 1 + m := ⟨k - (i + 1), by omega⟩
      have other : i + 1 + m ≠ i := by omega
      have index : i + 1 + m - i = m + 1 := by omega
      have reached : i ≤ i + 1 + m := by omega
      have reached' : i + 1 ≤ i + 1 + m := by omega
      rw [index, List.getElem?_cons_succ, List.take_succ_cons]
      by_cases own : p = n
      · have shift : j + 1 + (pos.take m).count n = j + ((pos.take m).count n + 1) := by omega
        subst own
        rw [if_pos rfl, ih, Nat.add_sub_cancel_left, Function.update_of_ne other,
          List.count_cons_self, shift]
        simp only [reached, reached', true_and]
      · rw [if_neg own, ih, Nat.add_sub_cancel_left, List.count_cons_of_ne own]
        simp only [reached, reached', true_and]

def callsOf (f : Key → Nat) (keys : List Key) (ns : List Nat) : List (Nat × List Key) :=
  (ns.filter fun n => (keys.filter fun key => f key = n) ≠ []).map fun n =>
    (n, keys.filter fun key => f key = n)

theorem callsOf_cons (ns : List Nat) : callsOf f keys (n :: ns) =
      if (keys.filter fun key => f key = n) = [] then callsOf f keys ns
      else (n, keys.filter fun key => f key = n) :: callsOf f keys ns := by
  unfold callsOf
  by_cases none : (keys.filter fun key => f key = n) = []
  · rw [if_pos none, List.filter_cons_of_neg (by simpa using none)]
  · rw [if_neg none, List.filter_cons_of_pos (by simpa using none), List.map_cons]

theorem callNodes_cons (ns : List Nat) (temp : Nat → Option Value) :
    callNodes nodes keys (keys.map f) (n :: ns) temp =
      if (keys.filter fun key => f key = n) = [] then callNodes nodes keys (keys.map f) ns temp else
        match nodes n (keys.filter fun key => f key = n) with
        | .other => ([(n, keys.filter fun key => f key = n)], none)
        | .array elements =>
          let later := callNodes nodes keys (keys.map f) ns
            (scatter n (mbulkReplyLoop elements) (keys.map f) 0 0 temp)
          ((n, keys.filter fun key => f key = n) :: later.1, later.2) := by
  rw [callNodes, count_map, argsOf_map]
  simp only [List.length_eq_zero_iff]

theorem callNodes_arrays {ns : List Nat} (nodup : ns.Nodup)
    (arrays : ∀ n ∈ ns, (keys.filter fun key => f key = n) ≠ [] →
      ∃ elements, nodes n (keys.filter fun key => f key = n) = .array elements)
    (temp : Nat → Option Value) :
    ∃ temp', callNodes nodes keys (keys.map f) ns temp = (callsOf f keys ns, some temp') ∧
      ∀ {k key}, keys[k]? = some key → (f key ∉ ns → temp' k = temp k) ∧ (f key ∈ ns → ∃ elements,
          nodes (f key) (keys.filter fun any => f any = f key) = .array elements ∧
          temp' k = ((mbulkReplyLoop elements)[((keys.take k).filter
            fun any => f any = f key).length]?).or (temp k)) := by
  induction ns generalizing temp with
  | nil => exact ⟨temp, rfl, fun _ => ⟨fun _ => rfl, fun none => nomatch none⟩⟩
  | cons n ns ih =>
    obtain ⟨fresh, nodup⟩ := List.nodup_cons.mp nodup
    obtain ⟨first, others⟩ := List.forall_mem_cons.mp arrays
    rw [callNodes_cons, callsOf_cons]
    by_cases none : (keys.filter fun key => f key = n) = []
    · rw [if_pos none, if_pos none]
      obtain ⟨temp', calls, values⟩ := ih nodup others temp
      refine ⟨temp', calls, fun {k key} found => ?_⟩
      have notOwn : f key ≠ n := by
        intro own
        have := List.filter_eq_nil_iff.mp none key (List.mem_of_getElem? found)
        simp only [own, decide_true, not_true_eq_false] at this
      simp only [List.mem_cons, notOwn, false_or]
      exact values found
    · rw [if_neg none, if_neg none]
      obtain ⟨elements, answer⟩ := first none
      obtain ⟨temp', calls, values⟩ := ih nodup others
        (scatter n (mbulkReplyLoop elements) (keys.map f) 0 0 temp)
      simp only [answer, calls]
      refine ⟨temp', rfl, fun {k key} found => ?_⟩
      have place : (keys.map f)[k - 0]? = some (f key) := by
        rw [Nat.sub_zero, List.getElem?_map, found, Option.map_some]
      obtain ⟨kept, set⟩ := values found
      by_cases own : f key = n
      · subst own
        refine ⟨fun other => absurd (.head _) other, fun _ => ⟨elements, answer, ?_⟩⟩
        rw [kept fresh, scatter_eq, if_pos ⟨Nat.zero_le _, place⟩, Nat.sub_zero, ← List.map_take,
          count_map, Nat.zero_add]
      · have skipped : scatter n (mbulkReplyLoop elements) (keys.map f) 0 0 temp k = temp k := by
          rw [scatter_eq, if_neg]
          rintro ⟨-, same⟩
          exact own (Option.some.inj (place.symm.trans same))
        simp only [List.mem_cons, own, false_or]
        rw [skipped] at kept set
        exact ⟨kept, set⟩

theorem callNodes_other {ns : List Nat} (other : ∃ n ∈ ns, (keys.filter fun key => f key = n) ≠ [] ∧
      nodes n (keys.filter fun key => f key = n) = .other) (temp : Nat → Option Value) :
    (callNodes nodes keys (keys.map f) ns temp).2 = none := by
  induction ns generalizing temp with
  | nil =>
    obtain ⟨n, mem, -⟩ := other
    cases mem
  | cons n ns ih =>
    rw [callNodes_cons]
    obtain ⟨m, mem, some, answer⟩ := other
    by_cases none : (keys.filter fun key => f key = n) = []
    · rw [if_pos none]
      rcases List.mem_cons.mp mem with rfl | mem
      · exact absurd none some
      · exact ih ⟨m, mem, some, answer⟩ temp
    · rw [if_neg none]
      cases reply : nodes n (keys.filter fun key => f key = n) with
      | other => rfl
      | array elements =>
        rcases List.mem_cons.mp mem with rfl | mem
        · rw [answer] at reply
          cases reply
        · exact ih ⟨m, mem, some, answer⟩ _

theorem perm_callsOf {ns : List Nat} (nodup : ns.Nodup) :
    ((callsOf f keys ns).flatMap fun call => call.2.map (some call.1, ·)).Perm
      ((keys.filter fun key => f key ∈ ns).map fun key => (some (f key), key)) := by
  induction ns with
  | nil => simp [callsOf]
  | cons n ns ih =>
    obtain ⟨fresh, nodup⟩ := List.nodup_cons.mp nodup
    have own : (keys.filter fun key => f key ∈ n :: ns).filter (fun key => f key = n) =
        keys.filter fun key => f key = n := by
      rw [List.filter_filter]
      refine List.filter_congr fun key _ => ?_
      by_cases same : f key = n <;> simp [same]
    have rest : (keys.filter fun key => f key ∈ n :: ns).filter (fun key => !(f key = n : Bool)) =
        keys.filter fun key => f key ∈ ns := by
      rw [List.filter_filter]
      refine List.filter_congr fun key _ => ?_
      by_cases same : f key = n
      · simp [same, fresh]
      · simp [same]
    have split := List.filter_append_perm (fun key => decide (f key = n))
      (keys.filter fun key => f key ∈ n :: ns)
    rw [own, rest] at split
    refine List.Perm.trans ?_ (split.map _)
    have call : ((keys.filter fun key => f key = n).map fun key => (some (f key), key)) =
        (keys.filter fun key => f key = n).map (some n, ·) := by
      refine List.map_congr_left fun key mem => ?_
      rw [of_decide_eq_true (List.mem_filter.mp mem).2]
    rw [List.map_append, call, callsOf_cons]
    by_cases none : (keys.filter fun key => f key = n) = []
    · rw [if_pos none, none, List.map_nil, List.nil_append]
      exact ih nodup
    · rw [if_neg none, List.flatMap_cons]
      exact (ih nodup).append_left _

end

/-! ## The order of the values -/

theorem asked_eq (every : ∀ key ∈ keys, (nodeOf ra key).isSome) (n : Nat) :
    asked ra keys n = keys.filter fun key => place ra key = n := by
  refine List.filter_congr fun key mem => ?_
  simp only [nodeOf_eq_place (every key mem), Option.some.injEq]

theorem known_of_every (every : ∀ key ∈ keys, (nodeOf ra key).isSome) : Known ra keys := by
  induction keys with
  | nil => trivial
  | cons key keys ih =>
    obtain ⟨node, every⟩ := List.forall_mem_cons.mp every
    exact .inr ⟨node, ih every⟩

theorem filterMap_range_of_isSome {α : Type} {g : Nat → Option α} {m : Nat}
    (every : ∀ k < m, (g k).isSome) : ((List.range m).filterMap g).length = m ∧
      ∀ k < m, ((List.range m).filterMap g)[k]? = g k := by
  induction m with
  | zero => exact ⟨rfl, fun k below => absurd below (Nat.not_lt_zero k)⟩
  | succ m ih =>
    obtain ⟨length, values⟩ := ih fun k below => every k (by omega)
    obtain ⟨value, last⟩ := Option.isSome_iff_exists.mp (every m (by omega))
    rw [List.range_succ, List.filterMap_append, List.filterMap_cons_some last, List.filterMap_nil]
    refine ⟨by rw [List.length_append, length, List.length_singleton], fun k below => ?_⟩
    rcases Nat.lt_succ_iff_lt_or_eq.mp below with below | rfl
    · rw [List.getElem?_append_left (by omega), values k below]
    · rw [List.getElem?_append_right (by omega), length, Nat.sub_self, last,
        List.getElem?_cons_zero]

theorem rank_lt {p : Key → Bool} {k : Nat} {key : Key} (found : keys[k]? = some key)
    (own : p key = true) : ((keys.take k).filter p).length < (keys.filter p).length := by
  obtain ⟨below, rfl⟩ := List.getElem?_eq_some_iff.mp found
  have split : keys.filter p =
      (keys.take k).filter p ++ keys[k] :: (keys.drop (k + 1)).filter p := by
    rw [← List.filter_cons_of_pos own, ← List.drop_eq_getElem_cons below, ← List.filter_append,
      List.take_append_drop]
  rw [split, List.length_append, List.length_cons]
  omega

section

variable (requested : keys ≠ []) (every : ∀ key ∈ keys, (nodeOf ra key).isSome)

include requested every

theorem mget_eq : mget ra nodes keys =
      match callNodes nodes keys (keys.map (place ra)) (List.range ra.count) fun _ => none with
      | (sent, none) => ⟨sent, .failed⟩
      | (sent, some temp) => ⟨sent, .values ((List.range keys.length).filterMap temp)⟩ := by
  rw [mget, if_neg (mt List.length_eq_zero_iff.mp requested), associate_eq_ok every]

theorem mget_other (other : ∃ n, asked ra keys n ≠ [] ∧ nodes n (asked ra keys n) = .other) :
    (mget ra nodes keys).outcome = .failed := by
  obtain ⟨n, some', answer⟩ := other
  rw [asked_eq every] at some' answer
  obtain ⟨key, mem⟩ := List.exists_mem_of_ne_nil _ some'
  obtain ⟨mem, own⟩ := List.mem_filter.mp mem
  have inside := place_lt (every key mem)
  rw [of_decide_eq_true own] at inside
  have ended := @callNodes_other nodes keys (place ra) (List.range ra.count)
    ⟨n, List.mem_range.mpr inside, some', answer⟩ fun _ => none
  rw [mget_eq requested every]
  cases result : callNodes nodes keys (keys.map (place ra)) (List.range ra.count) fun _ => none with
  | mk sent temp =>
    rw [result] at ended
    subst ended
    rfl

theorem mget_arrays
    (arrays : ∀ n, asked ra keys n ≠ [] → ∃ elements, nodes n (asked ra keys n) = .array elements) :
    ∃ values, (mget ra nodes keys).outcome = .values values ∧
      (RightLength ra nodes keys → InOrder ra nodes keys values (mget ra nodes keys).sent) := by
  have answers : ∀ n ∈ List.range ra.count, (keys.filter fun key => place ra key = n) ≠ [] →
      ∃ elements, nodes n (keys.filter fun key => place ra key = n) = .array elements := by
    intro n _ own
    rw [← asked_eq every] at own ⊢
    exact arrays n own
  obtain ⟨temp, calls, values⟩ := callNodes_arrays List.nodup_range answers fun _ => none
  rw [mget_eq requested every, calls]
  refine ⟨_, rfl, fun right => ?_⟩
  have value : ∀ {k key}, keys[k]? = some key → ∃ elements,
      nodes (place ra key) (asked ra keys (place ra key)) = .array elements ∧
      temp k = (mbulkReplyLoop elements)[(asked ra (keys.take k) (place ra key)).length]? := by
    intro k key found
    have mem := List.mem_of_getElem? found
    obtain ⟨elements, answer, set⟩ :=
      (values found).2 (List.mem_range.mpr (place_lt (every key mem)))
    refine ⟨elements, ?_, ?_⟩
    · rw [asked_eq every, answer]
    · rw [set, Option.or_none, asked_eq fun key mem => every key (List.mem_of_mem_take mem)]
  have set : ∀ k < keys.length, (temp k).isSome := by
    intro k below
    have found := List.getElem?_eq_getElem below
    have own : keys[k] ∈ asked ra keys (place ra keys[k]) := by
      rw [asked_eq every]
      exact List.mem_filter.mpr ⟨List.getElem_mem below, decide_eq_true rfl⟩
    obtain ⟨elements, answer, set⟩ := value found
    obtain ⟨elements', answer', length⟩ := right _ (List.ne_nil_of_mem own)
    rw [answer] at answer'
    cases answer'
    have rank : (asked ra (keys.take k) (place ra keys[k])).length <
        (asked ra keys (place ra keys[k])).length := by
      rw [asked_eq every, asked_eq fun key mem => every key (List.mem_of_mem_take mem)]
      exact rank_lt found (decide_eq_true rfl)
    rw [set, mbulkReplyLoop, List.getElem?_map, Option.isSome_map,
      List.getElem?_eq_getElem (by omega)]
    rfl
  obtain ⟨length, at'⟩ := filterMap_range_of_isSome set
  refine ⟨length, fun {i key n} found node => ?_, ?_⟩
  · have same := nodeOf_eq_place (every key (List.mem_of_getElem? found))
    rw [node] at same
    cases same
    obtain ⟨elements, answer, set⟩ := value found
    refine ⟨elements, answer, ?_⟩
    rw [at' i (List.getElem?_eq_some_iff.mp found).1, set]
  · have all : (keys.filter fun key => place ra key ∈ List.range ra.count) = keys :=
      List.filter_eq_self.mpr fun key mem =>
        decide_eq_true (List.mem_range.mpr (place_lt (every key mem)))
    have perm := @perm_callsOf keys (place ra) (List.range ra.count) List.nodup_range
    rw [all] at perm
    refine perm.trans (List.Perm.of_eq (List.map_congr_left fun key mem => ?_))
    rw [nodeOf_eq_place (every key mem)]

end

/-- **The multi-get keeps the order or fails, as it should, exactly if no key without a node
is reached, and the nodes answer with arrays of the right length unless one of them does not
answer with an array.** -/
theorem regroups_iff (ra : RedisArray) (nodes : Nat → List Key → Reply) (keys : List Key) :
    Regroups ra nodes keys ↔ Known ra keys ∧ ((∀ key ∈ keys, (nodeOf ra key).isSome) →
        RightLength ra nodes keys ∨
          ∃ n, asked ra keys n ≠ [] ∧ nodes n (asked ra keys n) = .other) := by
  by_cases empty : keys = []
  · subst empty
    refine iff_of_true ⟨fun some => absurd rfl some, fun _ => rfl⟩ ⟨trivial, fun _ => .inl ?_⟩
    exact fun n some => absurd rfl some
  constructor
  · intro regroups
    constructor
    · by_contra unknown
      have undefined : (mget ra nodes keys).outcome = .undefined := by
        rw [mget, if_neg (mt List.length_eq_zero_iff.mp empty), associate_eq_undefined unknown]
      have failed := regroups.fails fun all => unknown (known_of_every all.2.1)
      rw [undefined] at failed
      cases failed
    · intro every
      by_contra neither
      obtain ⟨wrong, arrays⟩ := not_or.mp neither
      obtain ⟨values, outcome, -⟩ := @mget_arrays ra nodes keys empty every fun n some => by
        cases answer : nodes n (asked ra keys n) with
        | other => exact absurd ⟨n, some, answer⟩ arrays
        | array elements => exact ⟨elements, rfl⟩
      have failed := regroups.fails fun all => wrong all.2.2
      rw [outcome] at failed
      cases failed
  · rintro ⟨known, answers⟩
    refine ⟨fun some every right => ?_, fun not => ?_⟩
    · obtain ⟨values, outcome, inOrder⟩ := mget_arrays some every fun n some =>
        (right n some).imp fun _ => And.left
      exact ⟨values, outcome, inOrder right⟩
    · by_cases every : ∀ key ∈ keys, (nodeOf ra key).isSome
      · have other := (answers every).resolve_left fun right => not ⟨empty, every, right⟩
        exact mget_other empty every other
      · rw [mget, if_neg (mt List.length_eq_zero_iff.mp empty), associate_eq_failed known every]

def firstOfTwo : RedisArray := ⟨2, none, some fun _ => 0, none, none⟩

/-- A node that answers two keys with one element. -/
theorem not_regroups_short :
    ¬ Regroups firstOfTwo (fun _ _ => .array [some [118]]) [.string [97], .string [98]] := by
  intro regroups
  have failed := regroups.fails fun all => by
    obtain ⟨elements, answer, length⟩ := all.2.2 0 (by decide)
    cases answer
    exact absurd length (by decide)
  exact absurd failed (by decide)

end PhpExts.Redis
