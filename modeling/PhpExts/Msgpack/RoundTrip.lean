import PhpExts.Msgpack.Chunking
import PhpExts.Msgpack.Decoded

/-!
# The round trip of a plain value

The value that comes back is the same exactly when each array that
`msgpack_check_ht_is_map` takes for a list has the keys of one, in order
(`same_decoded_iff`). A call that returns has had room on the parser's stack for
every container (`hasRoom_toMsg`), so that a value that nests deeper does not
come back at all. Together they say when a value comes back (`comesBack_iff`).
-/

namespace PhpExts.Msgpack.RoundTrip

open PhpExts.Zend PhpExts.Library
open Depth (opened)
open List (length_cons map_cons)

variable {config : Config}

def ListKeys (entries : List (HashKey × PhpValue)) : Prop :=
  entries.map Prod.fst = (List.range entries.length).map fun i => .index i

mutual

/-- At every level an array is taken for a map by `msgpack_check_ht_is_map`, or has the keys
of a list, in order. -/
def InOrder : PhpValue → Prop
  | .array next entries =>
    (asMap next entries = true ∨ ListKeys entries) ∧ EntriesInOrder entries
  | _ => True

def EntriesInOrder : List (HashKey × PhpValue) → Prop
  | [] => True
  | (_, v) :: rest => InOrder v ∧ EntriesInOrder rest

end

theorem keys_indexed (k : Nat) (ws : List PhpValue) :
    (indexed k ws).map Prod.fst = (List.range' k ws.length).map fun i => .index i := by
  induction ws generalizing k with
  | nil => rfl
  | cons w ws ih => simp only [indexed, map_cons, ih, length_cons, List.range'_succ]

theorem keys_of_sameEntries : (entries : List (HashKey × PhpValue)) →
    {entries' : List (HashKey × PhpValue)} → SameEntries entries entries' →
    entries'.map Prod.fst = entries.map Prod.fst
  | [], _, same => by simp only [SameEntries] at same; rw [same]
  | (_, _) :: rest, _, same => by
    simp only [SameEntries] at same
    obtain ⟨v', rest', rfl, -, same⟩ := same
    simp only [map_cons, keys_of_sameEntries rest same]

variable {entries : List (HashKey × PhpValue)}

theorem lookup_of_keys {k : Nat}
    (keys : entries.map Prod.fst = (List.range' k entries.length).map fun i => .index i) :
    ((List.range' k entries.length).map fun i => (entries.lookup (.index i)).getD .null) =
      entries.map Prod.snd := by
  induction entries generalizing k with
  | nil => rfl
  | cons entry rest ih =>
    obtain ⟨key, v⟩ := entry
    simp only [map_cons, length_cons, List.range'_succ, List.cons.injEq] at keys ⊢
    obtain ⟨rfl, keys⟩ := keys
    refine ⟨by simp, ?_⟩
    rw [← ih keys]
    refine List.map_congr_left fun i mem => ?_
    have other : (HashKey.index i == HashKey.index k) = false := by
      have := (List.mem_range'_1.mp mem).1
      simp only [beq_eq_false_iff_ne, ne_eq, HashKey.index.injEq]
      omega
    rw [List.lookup_cons, other]

theorem indexed_of_keys {k : Nat}
    (keys : entries.map Prod.fst = (List.range' k entries.length).map fun i => .index i) :
    indexed k ((entries.map Prod.snd).map decoded) = decodedEntries entries := by
  induction entries generalizing k with
  | nil => simp only [List.map_nil, indexed, decodedEntries]
  | cons entry rest ih =>
    obtain ⟨key, v⟩ := entry
    simp only [map_cons, length_cons, List.range'_succ, List.cons.injEq] at keys
    obtain ⟨rfl, keys⟩ := keys
    simp only [map_cons, indexed, decodedEntries, ih keys]

theorem indexed_listItems (keys : ListKeys entries) :
    indexed 0 ((listItems entries).map decoded) = decodedEntries entries := by
  rw [ListKeys, List.range_eq_range'] at keys
  rw [listItems, List.range_eq_range', lookup_of_keys keys, indexed_of_keys keys]

theorem same_array {next next' : Nat} {entries' : List (HashKey × PhpValue)} :
    Same (.array next entries) (.array next' entries') ↔ SameEntries entries entries' := by
  simp only [Same, PhpValue.array.injEq]
  constructor
  · rintro ⟨_, _, ⟨-, rfl⟩, same⟩
    exact same
  · exact fun same => ⟨_, _, ⟨rfl, rfl⟩, same⟩

mutual

theorem same_decoded_iff : (v : PhpValue) → (Same v (decoded v) ↔ InOrder v)
  | .null | .bool _ | .long _ | .double _ | .string _ => by simp [Same, decoded, InOrder]
  | .array next entries => by
    have values := sameEntries_decoded_iff entries
    by_cases empty : entries = []
    · subst empty
      rw [decoded_empty, same_array]
      simp [SameEntries, InOrder, ListKeys, EntriesInOrder]
    cases isMap : asMap next entries with
    | true =>
      rw [decoded_map empty isMap, same_array, values]
      simp [InOrder, isMap]
    | false =>
      rw [decoded_list empty isMap, same_array]
      simp only [InOrder, isMap, Bool.false_eq_true, false_or]
      constructor
      · intro same
        have keys : ListKeys entries := by
          have keys := keys_of_sameEntries entries same
          rw [keys_indexed] at keys
          rw [ListKeys, ← keys, List.range_eq_range']
          simp [listItems]
        rw [indexed_listItems keys, values] at same
        exact ⟨keys, same⟩
      · rintro ⟨keys, inOrder⟩
        rw [indexed_listItems keys]
        exact values.mpr inOrder

theorem sameEntries_decoded_iff : (entries : List (HashKey × PhpValue)) →
    (SameEntries entries (decodedEntries entries) ↔ EntriesInOrder entries)
  | [] => by simp only [decodedEntries, SameEntries, EntriesInOrder]
  | (key, v) :: rest => by
    simp only [decodedEntries, SameEntries, EntriesInOrder, List.cons.injEq, Prod.mk.injEq,
      true_and]
    rw [← same_decoded_iff v, ← sameEntries_decoded_iff rest]
    constructor
    · rintro ⟨_, _, ⟨rfl, rfl⟩, same, others⟩
      exact ⟨same, others⟩
    · exact fun ⟨same, others⟩ => ⟨_, _, ⟨rfl, rfl⟩, same, others⟩

end

theorem listItems_of_keys {entries : List (HashKey × PhpValue)} (keys : ListKeys entries) :
    listItems entries = entries.map Prod.snd := by
  rw [ListKeys, List.range_eq_range'] at keys
  rw [listItems, List.range_eq_range', lookup_of_keys keys]

mutual

theorem depth_toMsg (str8 : Bool) : (v : PhpValue) → InOrder v → (toMsg str8 v).depth = v.depth
  | .null, _ | .bool _, _ | .long _, _ | .double _, _ | .string _, _ => by
    simp only [toMsg, Msg.depth, PhpValue.depth]
  | .array next entries, inOrder => by
    simp only [InOrder] at inOrder
    have deep := depth_toMsgs str8 entries inOrder.2
    by_cases empty : entries = []
    · rw [empty, toMsg_empty]
      rfl
    cases isMap : asMap next entries with
    | true =>
      rw [toMsg_map empty isMap]
      simp only [Msg.depth, deep.1, PhpValue.depth]
    | false =>
      have keys : ListKeys entries := by simpa [isMap] using inOrder.1
      rw [toMsg_list empty isMap, listItems_of_keys keys, List.map_map]
      simp only [Msg.depth, PhpValue.depth]
      exact congrArg (· + 1) deep.2

theorem depth_toMsgs (str8 : Bool) : (entries : List (HashKey × PhpValue)) →
    EntriesInOrder entries →
    pairsDepth (entries.map fun entry => (keyMsg str8 entry.1, toMsg str8 entry.2)) =
        entriesDepth entries ∧
      itemsDepth (entries.map (toMsg str8 ∘ Prod.snd)) = entriesDepth entries
  | [], _ => ⟨rfl, rfl⟩
  | (key, v) :: rest, inOrder => by
    have here := depth_toMsg str8 v inOrder.1
    obtain ⟨pairs, items⟩ := depth_toMsgs str8 rest inOrder.2
    have scalar : (keyMsg str8 key).depth = 0 := by cases key <;> rfl
    simp only [map_cons, pairsDepth, itemsDepth, entriesDepth, Function.comp_apply, here,
      pairs, items, scalar, Nat.zero_max, and_self]

end

/-! ## Calls that return -/

section

variable {φ τ υ ο : Type} {cb : Callbacks φ τ υ ο} {data : Bytes} {s s' : Context υ ο}
  {spans : List (Nat × Nat)}

def Finishes (cb : Callbacks φ τ υ ο) (data : Bytes) (s : Context υ ο) : Prop :=
  ∃ fuel ret s', Prog.Returns (execute cb data fuel) s ret s'

theorem Finishes.first (finishes : Finishes cb data s) :
    ∃ label s', Prog.Returns (step cb data) s label s' := by
  obtain ⟨fuel, ret, t, run⟩ := finishes
  cases fuel with
  | zero => exact absurd run Prog.returns_exhausted
  | succ fuel =>
    simp only [execute, Prog.returns_bind] at run
    obtain ⟨label, s', first, -⟩ := run
    exact ⟨label, s', first⟩

theorem Finishes.next (finishes : Finishes cb data s)
    (first : Prog.Returns (step cb data) s .again s') : Finishes cb data s' := by
  obtain ⟨fuel, ret, t, run⟩ := finishes
  cases fuel with
  | zero => exact absurd run Prog.returns_exhausted
  | succ fuel =>
    simp only [execute, Prog.returns_bind] at run
    obtain ⟨label, s₁, first', rest⟩ := run
    obtain ⟨rfl, rfl⟩ := first'.unique first
    exact ⟨fuel, ret, t, rest⟩

theorem Finishes.leads {P : Context υ ο → Prop} (finishes : Finishes cb data s)
    (leads : Leads cb data P s .again s') : Finishes cb data s' := by
  generalize again : Label.again = label at leads
  induction leads with
  | last here step => exact finishes.next (again ▸ step)
  | next here step _ ih => exact ih (finishes.next step) again

theorem header_of_step {byte : UInt8} {label : Label} (state : s.cs = .header)
    (found : data[s.p]? = some byte) (run : Prog.Returns (step cb data) s label s') :
    Prog.Returns (header cb data byte.toNat) s label s' := by
  have less : s.p < data.length := (List.getElem?_eq_some_iff.mp found).1
  obtain ⟨byte', s₁, read, handled⟩ := Prog.returns_bind.mp (run.of_eq (step_header less state))
  obtain ⟨rfl, rfl⟩ := read.unique (returns_readByte found)
  exact handled

theorem trailed_of_step {label : Label} (size : data.length < 2 ^ 64) (state : s.cs ≠ .header)
    (pos : 0 < s.trail) (inside : s.p + s.trail ≤ data.length)
    (run : Prog.Returns (step cb data) s label s') :
    ∃ s₁, s₁.stack = s.stack ∧ Prog.Returns (trailed cb data s.cs s.trail s.p) s₁ label s' := by
  obtain ⟨_, s₁, moved, run⟩ :=
    Prog.returns_bind.mp (run.of_eq (step_trailed (by omega) size state inside))
  refine ⟨s₁, ?_, run⟩
  rw [Prog.returns_update.mp moved]

variable {func : Nat → Prog Unit φ τ υ ο}

theorem room_of_startContainer {count : Nat} {ct : ContainerType}
    {label : Label} (run : Prog.Returns (startContainer cb func count ct) s label s') :
    s.stack.length < embedStackSize := by
  simp only [startContainer, Prog.returns_bind, Prog.returns_read, Prog.returns_failIf] at run
  obtain ⟨_, _, ⟨rfl, rfl⟩, _, _, ⟨room, -⟩, -⟩ := run
  omega

theorem room_of_count (cs : UnpackState) (size : data.length < 2 ^ 64) {k n : Nat} {byte : UInt8}
     {ct : ContainerType} (pos : 0 < k) (fits : n < 256 ^ k)
    (state : s.cs = .header) (found : At data s.p (byte :: bigEndian k n)) (other : byte ≠ 0xd9)
    (header : header cb data byte.toNat = againFixedTrail cs k) (wait : cs ≠ .header)
    (run : ∀ i, trailed cb data cs k i =
      load data i k >>= fun count => startContainer cb func count ct)
    (finishes : Finishes cb data s) : s.stack.length < embedStackSize := by
  have inside := found.tail.le
  rw [length_bigEndian] at inside
  have leads : Leads cb data (Spanned data []) s .again
      { s with cs := cs, trail := k, p := s.p + 1 } :=
    leads_againFixedTrail state found.head other header
  have again := finishes.leads leads
  obtain ⟨label, s', step⟩ := again.first
  obtain ⟨s₁, stack, step⟩ := trailed_of_step size wait pos inside step
  simp only [run, Prog.returns_bind] at step
  obtain ⟨count, s₂, loaded, started⟩ := step
  have room := room_of_startContainer started
  rwa [(loaded.unique (returns_load found.tail fits)).2, stack] at room

theorem room_of_fix {n count : Nat} {ct : ContainerType}
    (small : n < 256) (state : s.cs = .header) (found : data[s.p]? = some (UInt8.ofNat n))
    (header : header cb data n = startContainer cb func count ct)
    (finishes : Finishes cb data s) : s.stack.length < embedStackSize := by
  obtain ⟨label, s', step⟩ := finishes.first
  have run := header_of_step state found step
  rw [toNat_fixByte small, header] at run
  exact room_of_startContainer run

theorem room_of_array (size : data.length < 2 ^ 64) {w : CountWidth} {n : Nat}
    (fits : n < w.limit) (state : s.cs = .header) (found : At data s.p (w.arrayHeader n))
    (finishes : Finishes cb data s) : s.stack.length < embedStackSize := by
  cases w with
  | fix =>
    have fits : n < 16 := fits
    exact room_of_fix (by omega) state found.head (header_fixArray fits) finishes
  | w16 =>
    exact room_of_count .array16 size (by decide) fits state found (by decide) rfl (by simp)
      (fun i => rfl) finishes
  | w32 =>
    exact room_of_count .array32 size (by decide) fits state found (by decide) rfl (by simp)
      (fun i => rfl) finishes

theorem room_of_map (size : data.length < 2 ^ 64) {w : CountWidth} {n : Nat}
    (fits : n < w.limit) (state : s.cs = .header) (found : At data s.p (w.mapHeader n))
    (finishes : Finishes cb data s) : s.stack.length < embedStackSize := by
  cases w with
  | fix =>
    have fits : n < 16 := fits
    exact room_of_fix (by omega) state found.head (header_fixMap fits) finishes
  | w16 =>
    exact room_of_count .map16 size (by decide) fits state found (by decide) rfl (by simp)
      (fun i => rfl) finishes
  | w32 =>
    exact room_of_count .map32 size (by decide) fits state found (by decide) rfl (by simp)
      (fun i => rfl) finishes

end

/-! ## The depth of what is read -/

section

variable {data : Bytes} {spans : List (Nat × Nat)}

structure AtMsg (config : Config) (data : Bytes) (spans : List (Nat × Nat)) (m : Msg)
    (s : Context UnserializeData Addr) : Prop where
  state : s.cs = .header
  found : At data s.p m.bytes
  covers : Covers spans (m.raw8Spans s.p)
  ready : Settled s.user
  counts : s.user.stack.length = s.stack.length
  fits : s.stack.length ≤ embedStackSize
  finishes : Finishes (unserializeCallbacks config) data s

def HasRoom (config : Config) (data : Bytes) (spans : List (Nat × Nat)) (m : Msg) : Prop :=
  ∀ s, AtMsg config data spans m s → s.stack.length + m.depth ≤ embedStackSize

theorem hasRoom_scalar {x : Scalar} : HasRoom config data spans (.scalar x) :=
  fun _ start => start.fits

def Reads (config : Config) (data : Bytes) (spans : List (Nat × Nat)) (m : Msg) (w : PhpValue) :
    Prop :=
  m.Fits ∧ Makes config m w ∧ HasRoom config data spans m

theorem room_of_items (size : data.length < 2 ^ 64) {ms : List Msg} {ws : List PhpValue}
    (each : List.Forall₂ (Reads config data spans) ms ws) :
    ∀ {s : Context UnserializeData Addr} {c : Stack Addr} {stack : List (Stack Addr)} {lo : Nat}
      (done : List PhpValue) {rest : List Nat}, s.cs = .header → At data s.p (itemsBytes ms) →
      Covers spans (itemsRaw8Spans s.p ms) → s.stack = c :: stack → c.ct = .arrayItem →
      c.count = ms.length → Filling lo c.obj done.length (indexed 0 done) s.user →
      s.user.stack = opened ms.length rest → rest.length = stack.length →
      stack.length < embedStackSize → done.length + ms.length ≤ 2 ^ 32 →
      Finishes (unserializeCallbacks config) data s →
      stack.length + (itemsDepth ms + 1) ≤ embedStackSize := by
  induction each with
  | nil =>
    intro s c stack lo done rest state found covers top array count filling counted length room
      small finishes
    exact room
  | @cons m w ms ws reads _ ih =>
    intro s c stack lo done rest state found covers top array count filling counted length room
      small finishes
    obtain ⟨fits, makes, hasRoom⟩ := reads
    simp only [length_cons] at small
    have counted : s.user.stack = (ms.length + 1) :: rest := counted
    have isOpen : s.user.stack ≠ [] := by rw [counted]; exact List.cons_ne_nil _ _
    have ready := filling.ready isOpen
    have here := hasRoom s ⟨state, found.left, covers.left, ready,
      by rw [counted, top, length_cons, length_cons, length],
      by rw [top, length_cons]; omega, finishes⟩
    rw [top, length_cons] at here
    obtain ⟨obj, u₁, run₁, built⟩ := makes s.user ready
      (by rw [counted, length_cons, length]; exact here)
    obtain ⟨u₂, run₂, -, stack₂, filling₂⟩ :=
      returns_unserializeArrayItem filling counted (by omega) built
    cases ms with
    | nil =>
      simp only [itemsDepth]
      omega
    | cons m' ms =>
      have arrives := arrives_msg size m fits state found.left covers.left
        (by rw [top, length_cons]; exact here) run₁
      rw [Arrives, top] at arrives
      obtain ⟨s₁, position, stack₁, user, leads⟩ := arrives
      rw [← user] at run₂
      have more := leads .again _ (returns_push_item array
        (by rw [count]; simp) run₂)
      have inner := ih (c := { c with obj := c.obj, count := c.count - 1 }) _ rfl
        (by rw [position]; exact found.right) (by rw [position]; exact covers.right) rfl array
        (by simp [count]) filling₂ stack₂ length room
        (by
          simp only [List.length_append, length_cons, List.length_nil] at small ⊢
          omega)
        (finishes.leads more)
      simp only [itemsDepth] at inner ⊢
      omega

theorem hasRoom_array (size : data.length < 2 ^ 64) {w : CountWidth} {ms : List Msg}
    (ws : List PhpValue) (each : List.Forall₂ (Reads config data spans) ms ws)
    (fits : (Msg.array w ms).Fits) (small : ms.length < 2 ^ 32) :
    HasRoom config data spans (.array w ms) := by
  intro s start
  have room := room_of_array size fits.1 start.state start.found.left start.finishes
  simp only [Msg.depth]
  cases each with
  | nil => exact room
  | @cons m w' ms ws reads each =>
    have header : LeadsTo (unserializeCallbacks config) data spans s s.stack
        (s.p + (w.arrayHeader (m :: ms).length).length) s.user
        (startContainer (unserializeCallbacks config) (unserializeCallbacks config).array
          (m :: ms).length .arrayItem) :=
      leadsTo_array size fits.1 start.state start.found.left
    obtain ⟨s₁, position, stack, user, leads⟩ := header
    obtain ⟨u₁, run₁, opened₁⟩ := returns_unserializeArray (m :: ms).length start.ready
      (by rw [start.counts]; exact room)
    have started := leads .again _ (returns_startContainer
      (by rw [stack]; exact room) (by rw [user]; exact run₁) (by simp))
    have inner := room_of_items size (.cons reads each)
      (c := ⟨home s.user, (m :: ms).length, .arrayItem, none⟩) [] rfl
      (by rw [position]; exact start.found.right) (by rw [position]; exact start.covers)
      rfl rfl rfl (opened₁.filling rfl) opened₁.stack (by rw [start.counts, stack])
      (by rw [stack]; exact room)
      (by simp only [List.length_nil]; omega) (start.finishes.leads started)
    rwa [stack] at inner

def ReadsPair (config : Config) (data : Bytes) (spans : List (Nat × Nat)) (pair : Msg × Msg)
    (entry : HashKey × PhpValue) : Prop :=
  pair.1.Fits ∧ MakesKey pair.1 entry.1 ∧ Reads config data spans pair.2 entry.2

theorem MakesKey.depth {m : Msg} {key : HashKey} (makes : MakesKey m key) : m.depth = 0 := by
  obtain ⟨x, rfl, -⟩ := makes
  rfl

theorem room_of_pairs (phpOnly : config.phpOnly = true) (size : data.length < 2 ^ 64)
    {pairs : List (Msg × Msg)} {entries : List (HashKey × PhpValue)}
    (each : List.Forall₂ (ReadsPair config data spans) pairs entries) :
    ∀ {s : Context UnserializeData Addr} {c : Stack Addr} {stack : List (Stack Addr)}
      {lo next : Nat} {started : Bool} (done : List (HashKey × PhpValue)) {rest : List Nat},
      s.cs = .header → At data s.p (pairsBytes pairs) → Covers spans (pairsRaw8Spans s.p pairs) →
      s.stack = c :: stack → c.ct = .mapKey → c.count = pairs.length →
      Pairing lo c.obj started next done s.user → s.user.stack = opened pairs.length rest →
      rest.length = stack.length → stack.length < embedStackSize →
      ((done ++ entries).map Prod.fst).Nodup → Finishes (unserializeCallbacks config) data s →
      stack.length + (pairsDepth pairs + 1) ≤ embedStackSize := by
  induction each with
  | nil =>
    intro s c stack lo next started done rest state found covers top map count pairing counted
      length room distinct finishes
    exact room
  | @cons pair entry pairs entries reads _ ih =>
    intro s c stack lo next started done rest state found covers top map count pairing counted
      length room distinct finishes
    obtain ⟨k, m⟩ := pair
    obtain ⟨keyFits, makesKey, fits, makes, hasRoom⟩ := reads
    have counted : s.user.stack = (pairs.length + 1) :: rest := counted
    have isOpen : s.user.stack ≠ [] := by rw [counted]; exact List.cons_ne_nil _ _
    have scalar := makesKey.depth
    simp only at keyFits makesKey fits makes hasRoom scalar
    -- the key
    obtain ⟨z, u₁, run₁, keyBuilt, ready₁, notNull, keyReads⟩ :=
      makes_key config makesKey (pairing.ready isOpen) isOpen
    have arrives := arrives_msg size k keyFits state found.left covers.left
      (by rw [top, length_cons, scalar]; omega) run₁
    rw [Arrives, top] at arrives
    obtain ⟨s₁, position₁, stack₁, user₁, leads₁⟩ := arrives
    have kept := leads₁ .again _
      (returns_push_key map)
    -- the value
    have here := hasRoom _ ⟨rfl, by rw [position₁]; exact found.right.left,
      by rw [position₁]; exact covers.right.left, by rw [user₁]; exact ready₁,
      by rw [user₁, keyBuilt.stack, counted]; simp only [length_cons, length],
      by simp only [length_cons]; omega, finishes.leads kept⟩
    simp only [length_cons] at here
    obtain ⟨val, u₂, run₂, built⟩ := makes u₁ ready₁
      (by rw [keyBuilt.stack, counted, length_cons, length]; exact here)
    have absent : entry.1 ∉ done.map Prod.fst := by
      rw [List.map_append, List.nodup_append] at distinct
      exact fun mem => distinct.2.2 _ mem _ (.head _) rfl
    obtain ⟨u₃, run₃, -, stack₃, pairing₃⟩ :=
      returns_unserializeMapItem phpOnly pairing counted absent notNull keyReads keyBuilt built
    cases pairs with
    | nil =>
      simp only [pairsDepth, scalar]
      omega
    | cons pair' pairs =>
      have valArrives := arrives_msg size m fits
        (s := { s₁ with
          stack := { c with mapKey := some (home s.user), ct := .mapValue } :: stack
          cs := .header
          p := s₁.p + 1 }) rfl
        (by rw [position₁]; exact found.right.left) (by rw [position₁]; exact covers.right.left)
        (by simp only [length_cons]; omega) (by rw [user₁]; exact run₂)
      obtain ⟨s₂, position₂, stack₂, user₂, leads₂⟩ := valArrives.after kept
      rw [← user₂] at run₃
      have more := leads₂ .again _ (returns_push_value rfl rfl
        (by simp only [count, length_cons]; omega) run₃)
      have next : s₂.p + 1 = s.p + k.bytes.length + m.bytes.length := by
        simp only at position₂
        omega
      have inner := ih (c := ⟨c.obj, c.count - 1, .mapKey, some (home s.user)⟩) _ rfl
        (by rw [next]; exact found.right.right) (by rw [next]; exact covers.right.right) rfl rfl
        (by simp [count]) pairing₃ stack₃ length room (by rwa [List.append_assoc])
        (finishes.leads more)
      simp only [pairsDepth, scalar] at inner ⊢
      omega

theorem hasRoom_map (phpOnly : config.phpOnly = true) (size : data.length < 2 ^ 64)
    {w : CountWidth} {pairs : List (Msg × Msg)} (entries : List (HashKey × PhpValue))
    (each : List.Forall₂ (ReadsPair config data spans) pairs entries)
    (fits : (Msg.map w pairs).Fits) (distinct : (entries.map Prod.fst).Nodup) :
    HasRoom config data spans (.map w pairs) := by
  intro s start
  have room := room_of_map size fits.1 start.state start.found.left start.finishes
  simp only [Msg.depth]
  cases each with
  | nil => exact room
  | @cons pair entry pairs entries reads each =>
    have header : LeadsTo (unserializeCallbacks config) data spans s s.stack
        (s.p + (w.mapHeader (pair :: pairs).length).length) s.user
        (startContainer (unserializeCallbacks config) (unserializeCallbacks config).map
          (pair :: pairs).length .mapKey) :=
      leadsTo_map size fits.1 start.state start.found.left
    obtain ⟨s₁, position, stack, user, leads⟩ := header
    obtain ⟨u₁, run₁, opened₁⟩ := returns_unserializeMap config (pair :: pairs).length start.ready
      (by rw [start.counts]; exact room) (by simp)
    have started := leads .again _ (returns_startContainer
      (by rw [stack]; exact room) (by rw [user]; exact run₁) (by simp))
    have inner := room_of_pairs phpOnly size (.cons reads each)
      (c := ⟨home s.user, (pair :: pairs).length, .mapKey, none⟩) [] rfl
      (by rw [position]; exact start.found.right) (by rw [position]; exact start.covers)
      rfl rfl rfl (opened₁.pairing rfl) opened₁.stack (by rw [start.counts, stack])
      (by rw [stack]; exact room)
      (by simpa using distinct) (start.finishes.leads started)
    rwa [stack] at inner

end

variable {data : Bytes} {spans : List (Nat × Nat)}

theorem reads_of_hasRoom (phpOnly : config.phpOnly = true) {str8 : Bool} {v : PhpValue}
    (valid : Valid v) (hasRoom : HasRoom config data spans (toMsg str8 v)) :
    Reads config data spans (toMsg str8 v) (decoded v) :=
  ⟨(wellFormed_toMsg v valid).fits, makes_toMsg phpOnly str8 v valid, hasRoom⟩

mutual

theorem hasRoom_toMsg (phpOnly : config.phpOnly = true) (size : data.length < 2 ^ 64)
    (str8 : Bool) : (v : PhpValue) → Valid v → HasRoom config data spans (toMsg str8 v)
  | .null, _ | .bool _, _ | .long _, _ | .double _, _ | .string _, _ => by
    simp only [toMsg]
    exact hasRoom_scalar
  | .array next entries, valid => by
    have fits : (toMsg str8 (.array next entries)).Fits := (wellFormed_toMsg _ valid).fits
    simp only [Valid] at valid
    obtain ⟨small, distinct, valid⟩ := valid
    have each := hasRoom_toMsgs phpOnly size str8 entries valid
    by_cases empty : entries = []
    · rw [empty, toMsg_empty] at fits ⊢
      exact hasRoom_array size [] .nil fits (by decide)
    cases isMap : asMap next entries with
    | true =>
      rw [toMsg_map empty isMap] at fits ⊢
      refine hasRoom_map phpOnly size (decodedEntries entries) ?_ fits
        (by rwa [keys_decodedEntries])
      rw [decodedEntries_eq, List.forall₂_map_left_iff, List.forall₂_map_right_iff,
        List.forall₂_same]
      intro entry mem
      have entryValid := valid.of_mem mem
      exact ⟨(wellFormed_toMsgs str8 entries valid entry mem).1.fits,
        makesKey_keyMsg entryValid.1, reads_of_hasRoom phpOnly entryValid.2 (each _ mem)⟩
    | false =>
      rw [toMsg_list empty isMap] at fits ⊢
      refine hasRoom_array size ((listItems entries).map decoded) ?_ fits
        (by simpa [listItems] using small)
      rw [List.forall₂_map_left_iff, List.forall₂_map_right_iff, List.forall₂_same]
      intro v mem
      rcases mem_listItems mem with rfl | ⟨key, stored⟩
      · exact reads_of_hasRoom phpOnly trivial (by rw [toMsg_null]; exact hasRoom_scalar)
      · exact reads_of_hasRoom phpOnly (valid.of_mem stored).2 (each _ stored)

theorem hasRoom_toMsgs (phpOnly : config.phpOnly = true) (size : data.length < 2 ^ 64)
    (str8 : Bool) : (entries : List (HashKey × PhpValue)) → EntriesValid entries →
    ∀ entry ∈ entries, HasRoom config data spans (toMsg str8 entry.2)
  | [], _, _, mem => by cases mem
  | (key, v) :: rest, valid, entry, mem => by
    rcases List.mem_cons.mp mem with rfl | mem
    · exact hasRoom_toMsg phpOnly size str8 v valid.2.1
    · exact hasRoom_toMsgs phpOnly size str8 rest valid.2.2 entry mem

end

theorem returns_execute_unique {φ τ υ ο : Type} {cb : Callbacks φ τ υ ο} {fuel fuel' : Nat}
    {s t t' : Context υ ο} {ret ret' : Ret} (run : Prog.Returns (execute cb data fuel) s ret t)
    (run' : Prog.Returns (execute cb data fuel') s ret' t') : t = t' := by
  induction fuel generalizing s fuel' with
  | zero => exact absurd run Prog.returns_exhausted
  | succ fuel ih =>
    cases fuel' with
    | zero => exact absurd run' Prog.returns_exhausted
    | succ fuel' =>
      simp only [execute, Prog.returns_bind] at run run'
      obtain ⟨label, s₁, first, rest⟩ := run
      obtain ⟨label', s₂, first', rest'⟩ := run'
      obtain ⟨rfl, rfl⟩ := first.unique first'
      cases label with
      | again => exact ih rest rest'
      | out | finish =>
        exact (Prog.returns_pure.mp rest).2.trans (Prog.returns_pure.mp rest').2.symm

/-- The call of `template_execute` takes all of the bytes, and the result of the caller holds
the same value. -/
def ComesBack (config : Config) (bytes : Bytes) (retval : Addr) (h : Heap) (v : PhpValue) : Prop :=
  ∃ fuel, (unserialize config bytes fuel retval h).result = .ok .extraBytes ∧
    (unserialize config bytes fuel retval h).state.p = bytes.length ∧
    ∃ w, Denotes (unserialize config bytes fuel retval h).state.user.heap (fun _ => True) retval w ∧
      Same v w

variable {retval : Addr} {h : Heap}

theorem settled_init (fresh : h.Fresh) (result : h.zvals retval = some ⟨.null, 1, false⟩) :
    Settled (unserializeInit retval h) := ⟨rfl, fresh, fun _ => result⟩

theorem bytes_ne_nil : (m : Msg) → m.bytes ≠ []
  | .scalar x => by
    cases x with
    | raw w _ => cases w <;> simp [Msg.bytes, Scalar.bytes, RawWidth.header]
    | bin w _ => cases w <;> simp [Msg.bytes, Scalar.bytes, BinWidth.header]
    | _ => simp [Msg.bytes, Scalar.bytes]
  | .pad m => by simp [Msg.bytes]
  | .array w _ => by cases w <;> simp [Msg.bytes, CountWidth.arrayHeader]
  | .map w _ => by cases w <;> simp [Msg.bytes, CountWidth.mapHeader]

theorem unserialize_toMsg (phpOnly : config.phpOnly = true) {str8 : Bool} {v : PhpValue}
    (valid : Valid v) (size : (toMsg str8 v).bytes.length < 2 ^ 64) (fresh : h.Fresh)
    (result : h.zvals retval = some ⟨.null, 1, false⟩)
    (room : (toMsg str8 v).depth ≤ embedStackSize) :
    ∃ fuel, (unserialize config (toMsg str8 v).bytes fuel retval h).result = .ok .extraBytes ∧
      (unserialize config (toMsg str8 v).bytes fuel retval h).state.p =
        (toMsg str8 v).bytes.length ∧
      Denotes (unserialize config (toMsg str8 v).bytes fuel retval h).state.user.heap
        (fun _ => True) retval (decoded v) := by
  have wellFormed : (toMsg str8 v).WellFormed := wellFormed_toMsg v valid
  have found : At (toMsg str8 v).bytes 0 (toMsg str8 v).bytes := ⟨[], [], by simp, rfl⟩
  have describes := describes_msg _ wellFormed.fits found (wellFormed.spans 0)
  obtain ⟨obj, u, run, built⟩ := makes_toMsg phpOnly str8 v valid
    (unserializeInit retval h) (settled_init fresh result) (by simpa [unserializeInit] using room)
  have nonempty : (toMsg str8 v).bytes ≠ [] := bytes_ne_nil _
  have streams := streams_of_outside (toMsg str8 v) wellFormed.fits size room
    [(toMsg str8 v).bytes] (by simp) (by simpa using nonempty)
    (fun span mem => ⟨(describes span mem).1, fun cut start => by
      simp only [boundaries, Nat.zero_add, List.mem_singleton] at start
      exact .inr (start ▸ (describes span mem).2.1)⟩) run
  have place : obj = retval := built.home
  refine ⟨(toMsg str8 v).bytes.length + 1, streams.returns, streams.offset, ?_⟩
  have user : (unserialize config (toMsg str8 v).bytes ((toMsg str8 v).bytes.length + 1) retval
      h).state.user = u := streams.user
  rw [user, ← place]
  exact Denotes.frame (fun _ _ => rfl) (fun _ _ => trivial) _ built.denotes

theorem inOrder_of_comesBack (phpOnly : config.phpOnly = true) {str8 : Bool} {v : PhpValue}
    (valid : Valid v) (size : (toMsg str8 v).bytes.length < 2 ^ 64) (fresh : h.Fresh)
    (result : h.zvals retval = some ⟨.null, 1, false⟩)
    (back : ComesBack config (toMsg str8 v).bytes retval h v) :
    (toMsg str8 v).depth ≤ embedStackSize ∧ InOrder v := by
  have wellFormed : (toMsg str8 v).WellFormed := wellFormed_toMsg v valid
  have found : At (toMsg str8 v).bytes 0 (toMsg str8 v).bytes := ⟨[], [], by simp, rfl⟩
  obtain ⟨fuel, returns, -, w, denotes, same⟩ := back
  have hasRoom : HasRoom config (toMsg str8 v).bytes ((toMsg str8 v).raw8Spans 0) (toMsg str8 v) :=
    hasRoom_toMsg phpOnly size str8 v valid
  have room := hasRoom (Context.init (unserializeInit retval h))
    ⟨rfl, found, fun span mem => ⟨wellFormed.spans 0 span mem, mem⟩,
      settled_init fresh result, rfl, Nat.zero_le _, ⟨fuel, .extraBytes, _, returns, rfl⟩⟩
  simp only [Context.init, List.length_nil, Nat.zero_add] at room
  obtain ⟨fuel', returns', -, denotes'⟩ :=
    unserialize_toMsg phpOnly valid size fresh result room
  have ends : (unserialize config (toMsg str8 v).bytes fuel retval h).state =
      (unserialize config (toMsg str8 v).bytes fuel' retval h).state :=
    returns_execute_unique ⟨returns, rfl⟩ ⟨returns', rfl⟩
  rw [ends] at denotes
  rw [Denotes.unique w denotes denotes'] at same
  exact ⟨room, (same_decoded_iff v).mp same⟩

variable {env : SerializeEnv} {v : PhpValue} {region : Addr → Prop} {a : Addr} {fuel : Nat}

/-- **What the encoder writes for a value comes back as the same value exactly when at every
level an array is taken for a map or has the keys of a list, in order, and the arrays nest no
deeper than the parser's stack.** -/
theorem comesBack_iff (phpOnly : env.phpOnly = true) (phpOnly' : config.phpOnly = true)
    (enough : v.depth < fuel) (valid : Valid v) (denotes : Denotes env.heap region a v)
    (size : (serialize env fuel a).state.buffer.length < 2 ^ 64) (fresh : h.Fresh)
    (result : h.zvals retval = some ⟨.null, 1, false⟩) : (serialize env fuel a).result = .ok () ∧
      (ComesBack config (serialize env fuel a).state.buffer retval h v ↔
        InOrder v ∧ v.depth ≤ embedStackSize) := by
  obtain ⟨returns, buffer⟩ := writes_serialize phpOnly enough valid denotes
  rw [buffer] at size ⊢
  refine ⟨returns, fun back => ?_, fun ⟨inOrder, room⟩ => ?_⟩
  · obtain ⟨room, inOrder⟩ := inOrder_of_comesBack phpOnly' valid size fresh result back
    rw [depth_toMsg _ v inOrder] at room
    exact ⟨inOrder, room⟩
  · rw [← depth_toMsg env.useStr8Serialization v inOrder] at room
    obtain ⟨fuel', returns', position, comes⟩ :=
      unserialize_toMsg phpOnly' valid size fresh result room
    exact ⟨fuel', returns', position, _, comes, (same_decoded_iff v).mpr inOrder⟩

/-- **What the encoder writes comes back from an unpacker that is fed with it in chunks**,
however it is cut, but for strings with a length of one byte. -/
theorem streams_serialize (phpOnly : env.phpOnly = true) (phpOnly' : config.phpOnly = true)
    (enough : v.depth < fuel) (valid : Valid v) (denotes : Denotes env.heap region a v)
    (size : (serialize env fuel a).state.buffer.length < 2 ^ 64) (fresh : h.Fresh)
    (result : h.zvals retval = some ⟨.null, 1, false⟩) (inOrder : InOrder v)
    (room : v.depth ≤ embedStackSize) {chunks : List Bytes}
    (whole : chunks.flatten = (serialize env fuel a).state.buffer)
    (nonempty : ∀ chunk ∈ chunks, chunk ≠ [])
    (outside : ∀ span ∈ (toMsg env.useStr8Serialization v).raw8Spans 0,
      ∀ cut ∈ boundaries 0 chunks, cut ≤ span.1 ∨ span.2 ≤ cut) :
    ∃ u w, Streams (unserializeCallbacks config) (unserializeInit retval h)
      (serialize env fuel a).state.buffer chunks retval u ∧
        Denotes u.heap (fun _ => True) retval w ∧ Same v w := by
  rw [(writes_serialize phpOnly enough valid denotes).2] at size whole ⊢
  rw [← depth_toMsg env.useStr8Serialization v inOrder] at room
  have wellFormed : (toMsg env.useStr8Serialization v).WellFormed := wellFormed_toMsg v valid
  obtain ⟨obj, u, run, built⟩ := makes_toMsg phpOnly' env.useStr8Serialization v valid
    (unserializeInit retval h) (settled_init fresh result) (by simpa [unserializeInit] using room)
  have place : obj = retval := built.home
  subst place
  exact ⟨u, decoded v, streams_of_outside _ wellFormed.fits size room chunks whole nonempty
    (fun span mem => ⟨wellFormed.spans 0 span mem, outside span mem⟩) run,
    Denotes.frame (fun _ _ => rfl) (fun _ _ => trivial) _ built.denotes,
    (same_decoded_iff v).mpr inOrder⟩

/-! ## An array of two strings -/

def pairHeap (first second : Int) : Heap where
  zvals
    | 0 => some ⟨.array ⟨[(.index first, 1), (.index second, 2)], 2⟩, 1, false⟩
    | 1 => some ⟨.string [97], 1, false⟩
    | 2 => some ⟨.string [98], 1, false⟩
    | _ => none
  nextAddr := 3
  objects _ := none
  nextHandle := 0
  objectAddress := id

def pairValue (first second : Int) : PhpValue :=
  .array 2 [(.index first, .string [97]), (.index second, .string [98])]

def pairEnv (first second : Int) : SerializeEnv where
  phpOnly := true
  useStr8Serialization := false
  user := .nothing
  heap := pairHeap first second
  zvalAddress := fun a => a
  classAddress _ := 0

theorem denotes_pair (first second : Int) :
    Denotes (pairHeap first second) (fun _ => True) 0 (pairValue first second) := by
  simp only [pairValue, Denotes, DenoteEntries, PhpValue.scalar, true_and]
  exact ⟨rfl, _, rfl, 1, _, rfl, ⟨rfl, rfl⟩, 2, [], rfl, ⟨rfl, rfl⟩, rfl⟩

theorem valid_pair {first second : Int} (range : InLong first ∧ InLong second)
    (other : first ≠ second) : Valid (pairValue first second) := by
  simp only [pairValue, Valid, EntriesValid, KeyValid]
  exact ⟨by simp, by simpa using other, range.1, by decide, range.2, by decide, trivial⟩

theorem comesBack_iff_pair : (serialize (pairEnv 0 1) 2 0).result = .ok () ∧
      (ComesBack .default (serialize (pairEnv 0 1) 2 0).state.buffer 0 resultHeap (pairValue 0 1) ↔
        InOrder (pairValue 0 1) ∧ (pairValue 0 1).depth ≤ embedStackSize) :=
  comesBack_iff rfl rfl (by decide)
    (valid_pair (by unfold InLong; omega) (by decide)) (denotes_pair 0 1) (by decide +kernel)
    fresh_resultHeap rfl

theorem inOrder_pair : InOrder (pairValue 0 1) := by
  simp only [pairValue, InOrder, EntriesInOrder, ListKeys, and_true]
  exact .inr rfl

theorem streams_serialize_pair : ∃ u w, Streams (unserializeCallbacks .default)
      (unserializeInit 0 resultHeap) (serialize (pairEnv 0 1) 2 0).state.buffer
      [[0x92, 0xa1], [0x61, 0xa1], [0x62]] 0 u ∧
        Denotes u.heap (fun _ => True) 0 w ∧ Same (pairValue 0 1) w :=
  streams_serialize rfl rfl (by decide)
    (valid_pair (by unfold InLong; omega) (by decide)) (denotes_pair 0 1) (by decide +kernel)
    fresh_resultHeap rfl inOrder_pair (by decide)
    (by decide +kernel) (by decide) (by decide +kernel)

/-- The strings of an array with the keys 1 and 0 come back under the keys 0 and 1, with their
places changed. -/
theorem not_comesBack_swapped :
    ¬ ComesBack .default (serialize (pairEnv 1 0) 2 0).state.buffer 0 resultHeap
      (pairValue 1 0) := by
  have valid : Valid (pairValue 1 0) := valid_pair (by unfold InLong; omega) (by decide)
  have buffer : (serialize (pairEnv 1 0) 2 0).state.buffer = (toMsg false (pairValue 1 0)).bytes :=
    (writes_serialize rfl (by decide) valid (denotes_pair 1 0)).2
  rw [buffer]
  intro back
  have inOrder := (inOrder_of_comesBack rfl valid (by decide +kernel) fresh_resultHeap rfl back).2
  simp only [pairValue, InOrder, ListKeys] at inOrder
  exact absurd inOrder.1 (by decide)

end PhpExts.Msgpack.RoundTrip
