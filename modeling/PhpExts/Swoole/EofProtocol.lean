import PhpExts.Library.Receiving
import PhpExts.Swoole.WebSocket
import Mathlib.Data.List.Infix

/-!
# Packages that end with a marker

`swProtocol_recv_check_eof` reads what arrives behind what the buffer holds and, with
`split_by_eof`, hands over every package that is complete. While no marker is found it
keeps the place from which the next scan has to begin.

In whatever pieces a stream arrives, the packages are those that end at the leftmost
marker, and the rest is kept (`cuts_of_admits`), as long as it does not reach the maximal
length: then the connection ends.
-/

namespace PhpExts.Swoole.EofProtocol

open PhpExts.Library.Receiving
open PhpExts.Swoole.WebSocket (swooleSizeAlign)
open List (append_assoc drop_drop length_drop nil_append not_mem_nil)

/-- The members of `swProtocol` that count here. -/
structure Protocol where
  packageEof : List UInt8
  packageMaxLength : Nat

/-- `swString`, with the bytes it holds. Its size is below `2 ^ 31`. -/
structure Buffer where
  content : List UInt8
  size : Nat
  offset : Nat

/-- The loop of `swoole_strnpos`: the haystack begins at the index `i`. -/
def strnposLoop (needle : List UInt8) : Nat → Nat → List UInt8 → Option Nat
  | 0, _, _ => none
  | count + 1, i, haystack =>
    if haystack.take needle.length = needle then some i
    else strnposLoop needle count (i + 1) (haystack.drop 1)

def swooleStrnpos (haystack needle : List UInt8) : Option Nat :=
  strnposLoop needle (haystack.length - needle.length + 1) 0 haystack

/-- The loop of `swProtocol_split_package_by_eof`: the packages and what remains. -/
def remainingLoop (eof : List UInt8) : Nat → List UInt8 → List (List UInt8) × List UInt8
  | 0, remaining => ([], remaining)
  | fuel + 1, remaining =>
    if remaining.length < eof.length then ([], remaining)
    else
      match swooleStrnpos remaining eof with
      | none => ([], remaining)
      | some pos =>
        let length := pos + eof.length
        let (packages, rest) := remainingLoop eof fuel (remaining.drop length)
        (remaining.take length :: packages, rest)

/-- `swProtocol_split_package_by_eof`, whose callback succeeds: the buffer, the packages,
and whether it returns zero. -/
def swProtocolSplitPackageByEof (eof : List UInt8) (buffer : Buffer) :
    Buffer × List (List UInt8) × Bool :=
  let eofPos :=
    if buffer.content.length - buffer.offset < eof.length then none
    else swooleStrnpos (buffer.content.drop buffer.offset) eof
  match eofPos with
  | none => ({ buffer with offset := buffer.content.length - eof.length }, [], false)
  | some pos =>
    let length := buffer.offset + pos + eof.length
    if length < buffer.content.length then
      let remaining := buffer.content.drop length
      let (packages, rest) := remainingLoop eof (remaining.length + 1) remaining
      ({ buffer with content := rest, offset := 0 }, buffer.content.take length :: packages, true)
    else ({ buffer with content := [], offset := 0 }, [buffer.content.take length], true)

/-- `buf_size`: the room in the buffer, at most `SW_BUFFER_SIZE_STD`. -/
def bufSize (buffer : Buffer) : Nat := min (buffer.size - buffer.content.length) 8192

/-- The buffer that is full, with a larger block. -/
def extend (pagesize : Nat) (protocol : Protocol) (buffer : Buffer) : Buffer :=
  { buffer with
    size := min (swooleSizeAlign (buffer.size * 2) pagesize % 2 ^ 32) protocol.packageMaxLength }

/-- `swProtocol_recv_check_eof` for one receive, from `recv_data` on; `call` is the loop. A
receive for no bytes gives zero, as it does at the end of the connection. -/
def swProtocolRecvCheckEof (pagesize : Nat) (protocol : Protocol) (buffer : Buffer) (chunk : List UInt8) :
    Receipt Buffer (List UInt8) :=
  if bufSize buffer = 0 then ⟨buffer, [], .error⟩
  else
    let filled := { buffer with content := buffer.content ++ chunk }
    if filled.content.length < protocol.packageEof.length then ⟨filled, [], .ok⟩
    else
      let (split, packages, zero) := swProtocolSplitPackageByEof protocol.packageEof filled
      if zero then ⟨split, packages, .ok⟩
      else if split.content.length = protocol.packageMaxLength then ⟨split, packages, .error⟩
      else if split.content.length = split.size ∧ split.size < protocol.packageMaxLength then
        ⟨extend pagesize protocol split, packages, .again⟩
      else ⟨split, packages, .again⟩

/-! ## Cutting a stream -/

/-- The packages of a stream end at the leftmost markers, and the rest has none. -/
structure Cuts (eof stream : List UInt8) (packages : List (List UInt8)) (rest : List UInt8) :
    Prop where
  whole : stream = packages.flatten ++ rest
  ends : ∀ package ∈ packages, eof <:+ package ∧ ¬ eof <:+: package.dropLast
  rest : ¬ eof <:+: rest

variable {eof stream stream' rest rest' : List UInt8} {packages packages' : List (List UInt8)}

theorem infix_iff_drop : eof <:+: stream ↔ ∃ i, eof <+: stream.drop i := by
  constructor
  · rintro ⟨front, back, rfl⟩
    exact ⟨front.length, back, by simp⟩
  · rintro ⟨i, inside⟩
    exact inside.isInfix.trans (List.drop_suffix i stream).isInfix

theorem add_le_of_prefix {i : Nat} (nonempty : eof ≠ []) (inside : eof <+: stream.drop i) :
    i + eof.length ≤ stream.length := by
  have le := inside.length_le
  have positive := List.length_pos_iff.mpr nonempty
  rw [length_drop] at le
  omega

theorem Cuts.append (first : Cuts eof stream packages rest)
    (second : Cuts eof (rest ++ stream') packages' rest') :
    Cuts eof (stream ++ stream') (packages ++ packages') rest' where
  whole := by
    rw [first.whole, append_assoc, second.whole, List.flatten_append, append_assoc]
  ends := fun package mem => (List.mem_append.mp mem).elim (first.ends package) (second.ends package)
  rest := second.rest

theorem Cuts.length_le (cuts : Cuts eof stream packages rest) : rest.length ≤ stream.length := by
  rw [cuts.whole, List.length_append]
  exact Nat.le_add_left _ _

theorem length_le_of_ends {first second : List UInt8} (left : first <+: stream)
    (right : second <+: stream) (ends : eof <:+ first) (earlier : ¬ eof <:+: second.dropLast) :
    second.length ≤ first.length := by
  by_contra longer
  refine earlier (ends.isInfix.trans (List.IsPrefix.isInfix ?_))
  refine List.prefix_of_prefix_length_le left ((List.dropLast_prefix second).trans right) ?_
  rw [List.length_dropLast]
  omega

theorem Cuts.unique (first : Cuts eof stream packages rest)
    (second : Cuts eof stream packages' rest') : packages = packages' ∧ rest = rest' := by
  induction packages generalizing stream packages' with
  | nil =>
    cases packages' with
    | nil => exact ⟨rfl, first.whole.symm.trans second.whole⟩
    | cons package others =>
      refine absurd ?_ first.rest
      have whole := first.whole.symm.trans second.whole
      simp only [List.flatten_nil, nil_append, List.flatten_cons, append_assoc] at whole
      rw [whole]
      exact (second.ends package (.head _)).1.isInfix.trans
        (List.prefix_append _ _).isInfix
  | cons package others ih =>
    cases packages' with
    | nil =>
      refine absurd ?_ second.rest
      have whole := second.whole.symm.trans first.whole
      simp only [List.flatten_nil, nil_append, List.flatten_cons, append_assoc] at whole
      rw [whole]
      exact (first.ends package (.head _)).1.isInfix.trans
        (List.prefix_append _ _).isInfix
    | cons package' others' =>
      have left := first.whole
      have right := second.whole
      rw [List.flatten_cons, append_assoc] at left right
      obtain ⟨ends, earlier⟩ := first.ends package (.head _)
      obtain ⟨ends', earlier'⟩ := second.ends package' (.head _)
      have front : package <+: stream := ⟨_, left.symm⟩
      have front' : package' <+: stream := ⟨_, right.symm⟩
      have same : package = package' := by
        refine (List.prefix_of_prefix_length_le front front' ?_).eq_of_length ?_
        · exact length_le_of_ends front' front ends' earlier
        · exact le_antisymm (length_le_of_ends front' front ends' earlier)
            (length_le_of_ends front front' ends earlier')
      subst same
      have tails := List.append_cancel_left (left.symm.trans right)
      obtain ⟨rfl, rfl⟩ := ih ⟨rfl, fun p mem => first.ends p (.tail _ mem),
        first.rest⟩ ⟨tails, fun p mem => second.ends p (.tail _ mem),
        second.rest⟩
      exact ⟨rfl, rfl⟩

variable {haystack : List UInt8}

theorem take_eq_iff : haystack.take eof.length = eof ↔ eof <+: haystack :=
  eq_comm.trans List.prefix_iff_eq_take.symm

theorem strnposLoop_spec (eof : List UInt8) (count i : Nat) (haystack : List UInt8) :
    match strnposLoop eof count i haystack with
    | some pos => i ≤ pos ∧ eof <+: haystack.drop (pos - i) ∧
        ∀ j < pos - i, ¬ eof <+: haystack.drop j
    | none => ∀ j < count, ¬ eof <+: haystack.drop j := by
  induction count generalizing i haystack with
  | zero => exact fun j low => absurd low (Nat.not_lt_zero j)
  | succ count ih =>
    rw [strnposLoop]
    by_cases here : haystack.take eof.length = eof
    · rw [if_pos here]
      refine ⟨le_rfl, ?_, fun j low => absurd low (by omega)⟩
      rw [Nat.sub_self, List.drop_zero]
      exact take_eq_iff.mp here
    · rw [if_neg here]
      have later := ih (i + 1) (haystack.drop 1)
      have first : ¬ eof <+: haystack.drop 0 := fun front => here (take_eq_iff.mpr front)
      have shift : ∀ j, (haystack.drop 1).drop j = haystack.drop (j + 1) := fun j => by
        rw [drop_drop, Nat.add_comm]
      cases found : strnposLoop eof count (i + 1) (haystack.drop 1) with
      | none =>
        rw [found] at later
        intro j low
        cases j with
        | zero => exact first
        | succ j => exact shift j ▸ later j (by omega)
      | some pos =>
        rw [found] at later
        obtain ⟨low, at_pos, before⟩ := later
        refine ⟨by omega, ?_, fun j below => ?_⟩
        · rw [shift] at at_pos
          rwa [show pos - i = pos - (i + 1) + 1 by omega]
        · cases j with
          | zero => exact first
          | succ j => exact shift j ▸ before j (by omega)

theorem strnpos_some {pos : Nat} (found : swooleStrnpos haystack eof = some pos) :
    eof <+: haystack.drop pos ∧ ∀ j < pos, ¬ eof <+: haystack.drop j := by
  have spec := strnposLoop_spec eof (haystack.length - eof.length + 1) 0 haystack
  rw [swooleStrnpos] at found
  rw [found] at spec
  exact spec.2

theorem strnpos_none (nonempty : eof ≠ [])
    (absent : swooleStrnpos haystack eof = none) : ¬ eof <:+: haystack := by
  have spec := strnposLoop_spec eof (haystack.length - eof.length + 1) 0 haystack
  rw [swooleStrnpos] at absent
  rw [absent] at spec
  rintro inside
  obtain ⟨i, front⟩ := infix_iff_drop.mp inside
  have le := add_le_of_prefix nonempty front
  exact spec i (by omega) front

theorem package_ends {pos : Nat} (nonempty : eof ≠ [])
    (found : eof <+: haystack.drop pos) (before : ∀ j < pos, ¬ eof <+: haystack.drop j) :
    eof <:+ haystack.take (pos + eof.length) ∧
      ¬ eof <:+: (haystack.take (pos + eof.length)).dropLast := by
  have le := add_le_of_prefix nonempty found
  constructor
  · refine ⟨haystack.take pos, ?_⟩
    rw [List.take_add, take_eq_iff.mpr found]
  · intro inside
    obtain ⟨j, front⟩ := infix_iff_drop.mp inside
    have ends := add_le_of_prefix nonempty front
    rw [List.length_dropLast, List.length_take, Nat.min_eq_left le] at ends
    have positive := List.length_pos_iff.mpr nonempty
    refine before j (by omega) (front.trans ?_)
    exact List.IsPrefix.drop ((List.dropLast_prefix _).trans (List.take_prefix _ _)) j

theorem remainingLoop_cuts (nonempty : eof ≠ []) (fuel : Nat) (remaining : List UInt8)
    (enough : remaining.length < fuel) :
    Cuts eof remaining (remainingLoop eof fuel remaining).1 (remainingLoop eof fuel remaining).2 := by
  induction fuel generalizing remaining with
  | zero => exact absurd enough (Nat.not_lt_zero _)
  | succ fuel ih =>
    have none : ¬ eof <:+: remaining → Cuts eof remaining [] remaining := fun absent =>
      ⟨rfl, fun p mem => absurd mem not_mem_nil, absent⟩
    rw [remainingLoop]
    split
    · rename_i short
      refine none fun inside => ?_
      have := inside.length_le
      omega
    · split
      · rename_i absent
        exact none (strnpos_none nonempty absent)
      · rename_i pos found
        obtain ⟨front, before⟩ := strnpos_some found
        have positive := List.length_pos_iff.mpr nonempty
        have le := add_le_of_prefix nonempty front
        have later := ih (remaining.drop (pos + eof.length)) (by
          rw [length_drop]
          omega)
        have first : Cuts eof (remaining.take (pos + eof.length))
            [remaining.take (pos + eof.length)] [] := by
          refine ⟨by simp, fun p mem => ?_, fun inside => nonempty (List.infix_nil.mp inside)⟩
          rw [List.mem_singleton.mp mem]
          exact package_ends nonempty front before
        rw [← nil_append (remaining.drop _)] at later
        have whole := first.append later
        rwa [List.take_append_drop, nil_append] at whole

theorem split_spec {buffer : Buffer} (nonempty : eof ≠ [])
    (scanned : ∀ i < buffer.offset, ¬ eof <+: buffer.content.drop i) :
    (¬ eof <:+: buffer.content ∧ swProtocolSplitPackageByEof eof buffer =
        ({ buffer with offset := buffer.content.length - eof.length }, [], false)) ∨
      (eof <:+: buffer.content ∧ ∃ packages rest, swProtocolSplitPackageByEof eof buffer =
        ({ buffer with content := rest, offset := 0 }, packages, true) ∧
        Cuts eof buffer.content packages rest ∧ rest.length < buffer.content.length) := by
  have positive := List.length_pos_iff.mpr nonempty
  by_cases inside : eof <:+: buffer.content
  · refine .inr ⟨inside, ?_⟩
    obtain ⟨i, front⟩ := infix_iff_drop.mp inside
    have later : buffer.offset ≤ i := by
      by_contra earlier
      exact scanned i (by omega) front
    have le := add_le_of_prefix nonempty front
    have long : ¬ buffer.content.length - buffer.offset < eof.length := by omega
    rw [swProtocolSplitPackageByEof]
    cases found : swooleStrnpos (buffer.content.drop buffer.offset) eof with
    | none =>
      refine absurd (infix_iff_drop.mpr ⟨i - buffer.offset, ?_⟩) (strnpos_none nonempty found)
      rwa [drop_drop, Nat.add_sub_cancel' later]
    | some pos =>
      obtain ⟨at_pos, before⟩ := strnpos_some found
      rw [drop_drop] at at_pos
      have leftmost : ∀ j < buffer.offset + pos, ¬ eof <+: buffer.content.drop j := by
        intro j below front
        by_cases scan : j < buffer.offset
        · exact scanned j scan front
        · refine before (j - buffer.offset) (by omega) ?_
          rwa [drop_drop, Nat.add_sub_cancel' (by omega)]
      have ends := package_ends nonempty at_pos leftmost
      have stop := add_le_of_prefix nonempty at_pos
      have first : Cuts eof (buffer.content.take (buffer.offset + pos + eof.length))
          [buffer.content.take (buffer.offset + pos + eof.length)] [] := by
        refine ⟨by simp, fun p mem => ?_, fun inside => nonempty (List.infix_nil.mp inside)⟩
        rw [List.mem_singleton.mp mem]
        exact ends
      simp only [long, if_false]
      by_cases more : buffer.offset + pos + eof.length < buffer.content.length
      · have others := remainingLoop_cuts nonempty _
          (buffer.content.drop (buffer.offset + pos + eof.length)) (Nat.lt_succ_self _)
        have shorter := others.length_le
        rw [← nil_append (buffer.content.drop _)] at others
        have whole := first.append others
        rw [List.take_append_drop] at whole
        simp only [more, if_true]
        refine ⟨_, _, rfl, whole, Nat.lt_of_le_of_lt shorter ?_⟩
        rw [length_drop]
        omega
      · rw [List.take_of_length_le (by omega)] at first
        simp only [more, if_false]
        rw [List.take_of_length_le (by omega)]
        exact ⟨_, _, rfl, first, by simp only [List.length_nil]; omega⟩
  · refine .inl ⟨inside, ?_⟩
    have absent : swooleStrnpos (buffer.content.drop buffer.offset) eof = none := by
      cases found : swooleStrnpos (buffer.content.drop buffer.offset) eof with
      | none => rfl
      | some pos =>
        have front := (strnpos_some found).1
        rw [drop_drop] at front
        exact absurd (infix_iff_drop.mpr ⟨_, front⟩) inside
    rw [swProtocolSplitPackageByEof, absent]
    simp only [ite_self]

variable {pagesize : Nat} {protocol : Protocol} {buffer : Buffer} {chunk : List UInt8}

structure Pending (protocol : Protocol) (buffer : Buffer) : Prop where
  rest : ¬ protocol.packageEof <:+: buffer.content
  offset : buffer.offset = 0 ∨ buffer.offset + protocol.packageEof.length ≤ buffer.content.length
  room : buffer.content.length < buffer.size
  marker : protocol.packageEof.length ≤ buffer.size

/-- The chunk leaves data without a marker that has exactly the maximal length, or that
fills a buffer which may not become larger. -/
def Overlong (protocol : Protocol) (buffer : Buffer) (chunk : List UInt8) : Prop :=
  ¬ protocol.packageEof <:+: buffer.content ++ chunk ∧
    (protocol.packageEof.length ≤ (buffer.content ++ chunk).length ∧
        (buffer.content ++ chunk).length = protocol.packageMaxLength ∨
      (buffer.content ++ chunk).length = buffer.size ∧ protocol.packageMaxLength ≤ buffer.size)

instance : Decidable (Overlong protocol buffer chunk) := inferInstanceAs (Decidable (_ ∧ _))

/-- The marker is not empty, and twice the maximal length fits in `uint32_t` with a page
behind it. -/
structure Protocol.Sensible (pagesize : Nat) (protocol : Protocol) : Prop where
  marker : protocol.packageEof ≠ []
  page : 0 < pagesize
  width : protocol.packageMaxLength * 2 + pagesize ≤ 2 ^ 32

theorem lt_size_extend (sensible : protocol.Sensible pagesize)
    (smaller : buffer.size < protocol.packageMaxLength) :
    buffer.size < (extend pagesize protocol buffer).size := by
  have width := sensible.width
  have rest := Nat.mod_lt (buffer.size * 2) sensible.page
  have aligned : swooleSizeAlign (buffer.size * 2) pagesize % 2 ^ 32 =
      swooleSizeAlign (buffer.size * 2) pagesize := by
    refine Nat.mod_eq_of_lt ?_
    unfold swooleSizeAlign
    omega
  simp only [extend]
  rw [aligned, swooleSizeAlign]
  omega

theorem recvCheckEof_spec (sensible : protocol.Sensible pagesize) (pending : Pending protocol buffer)
    (fits : chunk.length ≤ bufSize buffer) (short : ¬ Overlong protocol buffer chunk) :
    (swProtocolRecvCheckEof pagesize protocol buffer chunk).outcome ≠ .error ∧
      Pending protocol (swProtocolRecvCheckEof pagesize protocol buffer chunk).state ∧
      Cuts protocol.packageEof (buffer.content ++ chunk)
        (swProtocolRecvCheckEof pagesize protocol buffer chunk).packages
        (swProtocolRecvCheckEof pagesize protocol buffer chunk).state.content := by
  obtain ⟨rest, offset, room, marker⟩ := pending
  have nonempty := sensible.marker
  have positive := List.length_pos_iff.mpr nonempty
  have length : (buffer.content ++ chunk).length = buffer.content.length + chunk.length :=
    List.length_append
  have fits : chunk.length ≤ buffer.size - buffer.content.length :=
    fits.trans (Nat.min_le_left _ _)
  have some : ¬ bufSize buffer = 0 := by
    unfold bufSize
    omega
  rw [swProtocolRecvCheckEof, if_neg some]
  by_cases few : (buffer.content ++ chunk).length < protocol.packageEof.length
  · have absent : ¬ protocol.packageEof <:+: buffer.content ++ chunk := fun inside => by
      have := inside.length_le
      omega
    simp only [few, if_true]
    exact ⟨by decide, ⟨absent, by simp only; omega, by simp only; omega, marker⟩,
      rfl, fun p mem => absurd mem not_mem_nil, absent⟩
  · have scanned : ∀ i < buffer.offset, ¬ protocol.packageEof <+: (buffer.content ++ chunk).drop i := by
      intro i below front
      rw [List.drop_append_of_le_length (by omega)] at front
      refine rest (infix_iff_drop.mpr ⟨i, ?_⟩)
      refine List.prefix_of_prefix_length_le front (List.prefix_append _ chunk) ?_
      rw [length_drop]
      omega
    simp only [few, if_false]
    rcases @split_spec _ ⟨buffer.content ++ chunk, buffer.size, buffer.offset⟩ nonempty scanned with
      ⟨absent, split⟩ | ⟨-, packages, rest', split, cuts, shorter⟩
    · rw [split]
      have notMax : ¬ (buffer.content ++ chunk).length = protocol.packageMaxLength := fun same =>
        short ⟨absent, .inl ⟨by omega, same⟩⟩
      have cuts : Cuts protocol.packageEof (buffer.content ++ chunk) [] (buffer.content ++ chunk) :=
        ⟨rfl, fun p mem => absurd mem not_mem_nil, absent⟩
      have scan : (buffer.content ++ chunk).length - protocol.packageEof.length = 0 ∨
          (buffer.content ++ chunk).length - protocol.packageEof.length +
            protocol.packageEof.length ≤ (buffer.content ++ chunk).length := by omega
      simp only [Bool.false_eq_true, if_false, notMax]
      by_cases full : (buffer.content ++ chunk).length = buffer.size
      · have smaller : buffer.size < protocol.packageMaxLength := by
          by_contra larger
          exact short ⟨absent, .inr ⟨full, by omega⟩⟩
        have larger := @lt_size_extend pagesize protocol ⟨buffer.content ++ chunk, buffer.size,
          (buffer.content ++ chunk).length - protocol.packageEof.length⟩ sensible smaller
        rw [if_pos ⟨full, smaller⟩]
        exact ⟨by simp, ⟨absent, scan, full.trans_lt larger, marker.trans larger.le⟩, cuts⟩
      · simp only [full, false_and, if_false]
        exact ⟨by decide, ⟨absent, scan, by simp only; omega, marker⟩, cuts⟩
    · rw [split]
      simp only [if_true]
      refine ⟨by decide, ⟨cuts.rest, .inl rfl, ?_, marker⟩, cuts⟩
      simp only at shorter ⊢
      omega

/-- A chunk that is not empty, has room in the buffer and does not leave too much data
without a marker. -/
def Fits (protocol : Protocol) (buffer : Buffer) (chunk : List UInt8) : Prop :=
  chunk ≠ [] ∧ chunk.length ≤ bufSize buffer ∧ ¬ Overlong protocol buffer chunk

instance : Decidable (Fits protocol buffer chunk) := inferInstanceAs (Decidable (_ ∧ _))

theorem keeps_cuts (sensible : protocol.Sensible pagesize) :
    Keeps (swProtocolRecvCheckEof pagesize protocol) (Fits protocol)
      (fun buffer stream packages => Pending protocol buffer ∧
        Cuts protocol.packageEof stream packages buffer.content) (fun _ _ _ => False) where
  keeps := fun ⟨pending, cuts⟩ ⟨_, fits, short⟩ _ => by
    obtain ⟨-, pending', cuts'⟩ := recvCheckEof_spec sensible pending fits short
    exact ⟨pending', cuts.append cuts'⟩
  closes := fun ⟨pending, _⟩ ⟨_, fits, short⟩ error =>
    (recvCheckEof_spec sensible pending fits short).1 error

/-- **In whatever chunks a stream arrives, the calls cut it at the leftmost markers and
keep the rest.** -/
theorem cuts_of_admits (sensible : protocol.Sensible pagesize) {size : Nat}
    (marker : protocol.packageEof.length ≤ size) {chunks : List (List UInt8)}
    (admits : Admits (swProtocolRecvCheckEof pagesize protocol) (Fits protocol) chunks ⟨[], size, 0⟩) {calls : Nat}
    (enough : chunks.length ≤ calls) :
    (run (swProtocolRecvCheckEof pagesize protocol) calls chunks ⟨[], size, 0⟩).ok = true ∧
      Cuts protocol.packageEof chunks.flatten
        (run (swProtocolRecvCheckEof pagesize protocol) calls chunks ⟨[], size, 0⟩).packages
        (run (swProtocolRecvCheckEof pagesize protocol) calls chunks ⟨[], size, 0⟩).state.content := by
  have positive := List.length_pos_iff.mpr sensible.marker
  have absent : ¬ protocol.packageEof <:+: [] := fun inside =>
    sensible.marker (List.infix_nil.mp inside)
  have start : Pending protocol ⟨[], size, 0⟩ :=
    ⟨absent, .inl rfl, Nat.lt_of_lt_of_le positive marker, marker⟩
  have empty : Cuts protocol.packageEof [] [] [] :=
    ⟨rfl, fun p member => absurd member not_mem_nil, absent⟩
  obtain ⟨held, closed⟩ := run_spec (keeps_cuts sensible) enough ⟨start, empty⟩ admits
  cases ok : (run (swProtocolRecvCheckEof pagesize protocol) calls chunks ⟨[], size, 0⟩).ok with
  | true => exact ⟨rfl, (held ok).2⟩
  | false =>
    obtain ⟨_, _, impossible⟩ := closed ok
    exact impossible.elim

theorem cuts_lines : Cuts [13, 10] [97, 13, 10, 98, 13, 10, 99]
      (run (swProtocolRecvCheckEof 4096 ⟨[13, 10], 64⟩) 4 [[97], [13], [10, 98, 13], [10, 99]] ⟨[], 8, 0⟩).packages
      (run (swProtocolRecvCheckEof 4096 ⟨[13, 10], 64⟩) 4 [[97], [13], [10, 98, 13], [10, 99]]
        ⟨[], 8, 0⟩).state.content :=
  (@cuts_of_admits 4096 ⟨[13, 10], 64⟩ ⟨by decide, by decide, by decide⟩ 8 (by decide)
    [[97], [13], [10, 98, 13], [10, 99]]
    ⟨by decide, fun _ => ⟨by decide, fun _ => ⟨by decide, fun _ => ⟨by decide, fun _ => trivial⟩⟩⟩⟩
    4 le_rfl).2

/-- Four bytes without a marker have the maximal length: the connection ends before the
marker arrives. -/
theorem not_cuts_maxLength : ¬ Cuts [10] [97, 97, 97, 97, 10]
      (run (swProtocolRecvCheckEof 4096 ⟨[10], 4⟩) 2 [[97, 97, 97, 97], [10]] ⟨[], 8, 0⟩).packages
      (run (swProtocolRecvCheckEof 4096 ⟨[10], 4⟩) 2 [[97, 97, 97, 97], [10]] ⟨[], 8, 0⟩).state.content :=
  fun cuts => absurd cuts.whole (by decide)

end PhpExts.Swoole.EofProtocol
