import Mathlib.Data.List.Basic

/-!
# The string that grows

Each of the functions on `swString` makes room of its own. The appends and writes compute the new
length in an `int` and double it, which is right as long as it is one. `swString_alloc` has its
test the wrong way round: it extends a string that has room already, and where there is none it
only counts the bytes as used (`not_sound_alloc`). All calls within these limits do to the string what
they do to its bytes (`sound_of_fits`). Bytes that have not been written yet are undetermined.
-/

namespace PhpExts.Swoole.DynamicString

open List (append_assoc length_append)

/-- What ends a run: a copy that is not in the buffer, an `int` that overflows, or an assertion. -/
inductive Fault where
  | outside
  | overflow
  | assertion

/-- `swString`, with its buffer. -/
structure SwString where
  length : Nat
  size : Nat
  str : List (Option UInt8)

def swStringNew (size : Nat) : SwString := ⟨0, size, List.replicate size none⟩

/-- A conversion to `size_t`. -/
def sizeT (n : Int) : Nat := (n % 0x10000000000000000).toNat

/-- A conversion to `int`. -/
def toInt (n : Int) : Int := (n + 0x80000000) % 0x100000000 - 0x80000000

def swooleSizeAlign (size pagesize : Nat) : Nat :=
  (size + (pagesize - size % pagesize)) % 0x10000000000000000

/-- `swString_extend`, with whether the memory is granted. Without a result it is `SW_ERR`. -/
def swStringExtend (newSize : Nat) (granted : Bool) (s : SwString) :
    Except Fault (Option SwString) :=
  if newSize ≤ s.size then .error .assertion
  else if granted then
    .ok (some { s with
      size := newSize, str := s.str ++ List.replicate (newSize - s.size) none })
  else .ok none

/-- The size that `swString_extend_align` doubles to. -/
def alignSize (size newSize : Nat) : Nat :=
  if 0 < size ∧ size < newSize then alignSize (size * 2) newSize else size
termination_by newSize - size

def swStringExtendAlign (newSize : Nat) (granted : Bool) (s : SwString) :
    Except Fault (Option SwString) :=
  swStringExtend (alignSize (s.size * 2) newSize) granted s

def overwrite (offset : Nat) (bytes s : List (Option UInt8)) : List (Option UInt8) :=
  s.take offset ++ bytes ++ s.drop (offset + bytes.length)

def bytesOf (source : Nat → UInt8) (n : Nat) : List (Option UInt8) :=
  (List.range n).map fun i => some (source i)

/-- `memcpy` into the buffer. -/
def memcpy (offset : Int) (source : Nat → UInt8) (n : Nat) (s : SwString) : Except Fault SwString :=
  if 0 ≤ offset ∧ offset + n ≤ s.str.length then
    .ok { s with str := overwrite offset.toNat (bytesOf source n) s.str }
  else .error .outside

/-- The body of the appends and writes: room for a new size, then the copy and the new length. -/
def put (pagesize : Nat) (newSize offset : Int) (source : Nat → UInt8) (n length : Nat)
    (granted : Bool) (s : SwString) : Except Fault (SwString × Bool) := do
  let room ← if s.size < sizeT newSize then
      if -0x80000000 ≤ newSize * 2 ∧ newSize * 2 < 0x80000000 then
        swStringExtend (swooleSizeAlign (sizeT (newSize * 2)) pagesize) granted s
      else .error .overflow
    else .ok (some s)
  match room with
  | none => .ok (s, false)
  | some s => (memcpy offset source n s).map fun s => ({ s with length := length }, true)

inductive Call where
  | append (source : Nat → UInt8) (length : Nat)
  | appendPtr (source : Nat → UInt8) (length : Int)
  | write (offset : Int) (source : Nat → UInt8) (length : Nat)
  | writePtr (offset : Int) (source : Nat → UInt8) (length : Int)
  | extend (newSize : Nat)
  | alloc (size : Nat)

def Call.perform (pagesize : Nat) (granted : Bool) (s : SwString) :
    Call → Except Fault (SwString × Bool)
  | append source length =>
    put pagesize (toInt (s.length + length)) s.length source length (s.length + length) granted s
  | appendPtr source length =>
    put pagesize (toInt (s.length + length)) s.length source (sizeT length)
      (sizeT (s.length + length)) granted s
  | write offset source length =>
    let newLength := toInt (offset + length)
    put pagesize newLength offset source length
      (if s.length < sizeT newLength then sizeT newLength else s.length) granted s
  | writePtr offset source length =>
    let newLength := toInt (offset + length)
    put pagesize newLength offset source (sizeT length)
      (if s.length < sizeT newLength then sizeT newLength else s.length) granted s
  | extend newSize => (swStringExtend newSize granted s).map fun
    | none => (s, false)
    | some s => (s, true)
  | alloc size => do
    -- the test of the source
    let room ← if s.length + size < s.size then
        swStringExtendAlign (s.length + size) granted s
      else .ok (some s)
    match room with
    | none => .ok (s, false)
    | some s => .ok ({ s with length := s.length + size }, true)

/-! ## The byte string -/

def writeAt (offset : Nat) (bytes s : List (Option UInt8)) : List (Option UInt8) :=
  overwrite offset bytes (s ++ List.replicate (offset + bytes.length - s.length) none)

def Call.onString (s : List (Option UInt8)) : Call → List (Option UInt8)
  | append source length => s ++ bytesOf source length
  | appendPtr source length => s ++ bytesOf source length.toNat
  | write offset source length => writeAt offset.toNat (bytesOf source length) s
  | writePtr offset source length => writeAt offset.toNat (bytesOf source length.toNat) s
  | extend _ => s
  | alloc size => s ++ List.replicate size none

/-- In all states of a run the length is within the size, the contents are those of the byte
string, and no call leaves the buffer. A call that fails changes nothing. -/
def Sound (pagesize : Nat) (s : SwString) (contents : List (Option UInt8)) :
    List (Call × Bool) → Prop
  | [] => s.length ≤ s.size ∧ s.str.take s.length = contents
  | call :: calls => s.length ≤ s.size ∧ s.str.take s.length = contents ∧ ∃ s' done,
    call.1.perform pagesize call.2 s = .ok (s', done) ∧
      Sound pagesize s' (if done then call.1.onString contents else contents) calls

/-- An offset and a length whose sum is an `int`, and its double as well where it is needed. -/
def Put (s : SwString) (offset length : Int) : Prop :=
  0 ≤ offset ∧ 0 ≤ length ∧ offset + length < 0x80000000
    ∧ (offset + length ≤ s.size ∨ (offset + length) * 2 < 0x80000000)

def Call.Fits (s : SwString) : Call → Prop
  | append _ length => Put s s.length length
  | appendPtr _ length => Put s s.length length
  | write offset _ length => Put s offset length
  | writePtr offset _ length => Put s offset length
  | extend newSize => s.size < newSize
  | alloc size => s.length + size ≤ s.size

def Fits (pagesize : Nat) (s : SwString) : List (Call × Bool) → Prop
  | [] => True
  | call :: calls => call.1.Fits s ∧ ∀ s' done,
    call.1.perform pagesize call.2 s = .ok (s', done) → Fits pagesize s' calls

structure SwString.Holds (s : SwString) (contents : List (Option UInt8)) : Prop where
  length_eq : contents.length = s.length
  within : s.length ≤ s.size
  str_eq : s.str = contents ++ List.replicate (s.size - s.length) none

section

variable {pagesize n : Nat} {offset length : Int} {source : Nat → UInt8} {granted : Bool}
  {s : SwString} {contents bytes : List (Option UInt8)}

theorem sizeT_of_range (lower : 0 ≤ length) (upper : length < 0x80000000) :
    sizeT length = length.toNat := by
  rw [sizeT, Int.emod_eq_of_lt lower (by omega)]

theorem toInt_of_range (lower : 0 ≤ length) (upper : length < 0x80000000) :
    toInt length = length := by
  rw [toInt]
  omega

theorem length_bytesOf : (bytesOf source n).length = n := by
  rw [bytesOf, List.length_map, List.length_range]

theorem overwrite_append {place : Nat} {rest : List (Option UInt8)}
    (inside : place + bytes.length ≤ contents.length) :
    overwrite place bytes (contents ++ rest) = overwrite place bytes contents ++ rest := by
  rw [overwrite, overwrite, List.take_append_of_le_length (by omega),
    List.drop_append_of_le_length inside, append_assoc, append_assoc, append_assoc]

theorem length_overwrite {place : Nat} (inside : place + bytes.length ≤ contents.length) :
    (overwrite place bytes contents).length = contents.length := by
  simp only [overwrite, length_append, List.length_take, List.length_drop]
  omega

theorem length_writeAt {place : Nat} :
    (writeAt place bytes contents).length = max contents.length (place + bytes.length) := by
  have padded : (contents ++ List.replicate (place + bytes.length - contents.length)
      (none : Option UInt8)).length = max contents.length (place + bytes.length) := by
    rw [length_append, List.length_replicate]
    omega
  rw [writeAt, length_overwrite (by omega), padded]

theorem writeAt_length : writeAt contents.length bytes contents = contents ++ bytes := by
  simp [writeAt, overwrite]

theorem SwString.Holds.take_eq (holds : s.Holds contents) : s.str.take s.length = contents := by
  rw [holds.str_eq, ← holds.length_eq, List.take_left]

theorem extend_of_lt (granted : Bool) (newSize : Nat) (holds : s.Holds contents)
    (larger : s.size < newSize) : ∃ room, swStringExtend newSize granted s = .ok room
      ∧ ∀ s', room = some s' → s'.Holds contents ∧ s'.length = s.length ∧ newSize ≤ s'.size := by
  have within := holds.within
  rw [swStringExtend, if_neg (by omega)]
  split_ifs with memory
  · refine ⟨_, rfl, fun s' same => ?_⟩
    cases same
    refine ⟨⟨holds.length_eq, by simp only; omega, ?_⟩, rfl, Nat.le_refl _⟩
    simp only
    rw [holds.str_eq, append_assoc, ← List.replicate_add]
    congr 2
    omega
  · exact ⟨none, rfl, nofun⟩

theorem memcpy_of_room (source : Nat → UInt8) (holds : s.Holds contents) (place n : Nat)
    (room : place + n ≤ s.size) : ∃ s', memcpy place source n s = .ok s'
      ∧ SwString.Holds { s' with length := max s.length (place + n) }
        (writeAt place (bytesOf source n) contents) := by
  have same := holds.length_eq
  have within := holds.within
  have size : s.str.length = s.size := by
    rw [holds.str_eq, length_append, List.length_replicate]
    omega
  rw [memcpy, if_pos ⟨by omega, by omega⟩]
  refine ⟨_, rfl, ?_, ?_, ?_⟩
  · rw [length_writeAt, length_bytesOf, same]
  · simp only
    omega
  · -- the padding of the byte string is the first part of what is not written yet
    have rest : s.size - s.length
        = (place + n - contents.length) + (s.size - max s.length (place + n)) := by omega
    simp only [Int.toNat_natCast]
    rw [holds.str_eq, rest, List.replicate_add, ← append_assoc, writeAt, length_bytesOf]
    refine overwrite_append ?_
    rw [length_bytesOf, length_append, List.length_replicate]
    omega

theorem put_of_fits (source : Nat → UInt8) (granted : Bool) (positive : 0 < pagesize)
    (small : pagesize < 0x80000000) (holds : s.Holds contents) (fits : Put s offset length) :
    ∃ s' done, put pagesize (toInt (offset + length)) offset source length.toNat
        (max s.length (offset + length).toNat) granted s = .ok (s', done)
      ∧ s'.Holds (if done then writeAt offset.toNat (bytesOf source length.toNat) contents
        else contents) := by
  obtain ⟨lower, nonneg, sum, double⟩ := fits
  obtain ⟨place, rfl⟩ := Int.eq_ofNat_of_zero_le lower
  obtain ⟨n, rfl⟩ := Int.eq_ofNat_of_zero_le nonneg
  have total : ((place : Int) + n).toNat = place + n := by omega
  rw [put, toInt_of_range (by omega) sum, sizeT_of_range (by omega) sum, total]
  simp only [Int.toNat_natCast]
  split_ifs with grows range
  · -- the aligned double is larger than the sum
    have left := Nat.mod_lt (((place : Int) + n) * 2).toNat positive
    obtain ⟨room, eq, extended⟩ := extend_of_lt granted
      (swooleSizeAlign (sizeT (((place : Int) + n) * 2)) pagesize) holds (by
        rw [sizeT_of_range (by omega) range.2, swooleSizeAlign, Nat.mod_eq_of_lt (by omega)]
        omega)
    rw [eq]
    cases room with
    | none => exact ⟨s, false, rfl, holds⟩
    | some s' =>
      obtain ⟨holds', unchanged, larger⟩ := extended s' rfl
      rw [sizeT_of_range (by omega) range.2, swooleSizeAlign, Nat.mod_eq_of_lt (by omega)] at larger
      obtain ⟨s'', copied, written⟩ := memcpy_of_room source holds' place n (by omega)
      rw [unchanged] at written
      simp only [bind, Except.bind]
      rw [copied]
      exact ⟨_, true, rfl, written⟩
  · exact absurd ⟨by omega, by omega⟩ range
  · obtain ⟨s', copied, written⟩ := memcpy_of_room source holds place n (by omega)
    simp only [bind, Except.bind]
    rw [copied]
    exact ⟨_, true, rfl, written⟩

theorem SwString.Holds.alloc (holds : s.Holds contents) (room : s.length + n ≤ s.size) :
    SwString.Holds { s with length := s.length + n } (contents ++ List.replicate n none) := by
  refine ⟨?_, room, ?_⟩
  · rw [length_append, List.length_replicate, holds.length_eq]
  · rw [holds.str_eq, append_assoc, ← List.replicate_add]
    congr 2
    simp only
    omega

theorem perform_of_fits (granted : Bool) (positive : 0 < pagesize) (small : pagesize < 0x80000000)
    (holds : s.Holds contents) {call : Call} (fits : call.Fits s) :
    ∃ s' done, call.perform pagesize granted s = .ok (s', done)
      ∧ s'.Holds (if done then call.onString contents else contents) := by
  have same := holds.length_eq
  have larger (newLength : Nat) :
      (if s.length < newLength then newLength else s.length) = max s.length newLength := by
    split_ifs <;> omega
  cases call with
  | append source n =>
    have step := put_of_fits source granted positive small holds fits
    have total : max s.length ((s.length : Int) + n).toNat = s.length + n := by omega
    rwa [total, Int.toNat_natCast, Int.toNat_natCast, ← same, writeAt_length, same] at step
  | appendPtr source length =>
    have step := put_of_fits source granted positive small holds fits
    obtain ⟨-, nonneg, sum, -⟩ := fits
    have total : max s.length ((s.length : Int) + length).toNat = sizeT (s.length + length) := by
      rw [sizeT_of_range (by omega) sum]
      omega
    rw [total, Int.toNat_natCast, ← same, writeAt_length, same] at step
    rwa [Call.perform, sizeT_of_range nonneg (by omega)]
  | write offset source n =>
    have step := put_of_fits source granted positive small holds fits
    obtain ⟨lower, nonneg, sum, -⟩ := fits
    have total : sizeT (toInt (offset + n)) = (offset + n).toNat := by
      rw [toInt_of_range (by omega) sum, sizeT_of_range (by omega) sum]
    simp only [Call.perform, larger, total]
    exact step
  | writePtr offset source length =>
    have step := put_of_fits source granted positive small holds fits
    obtain ⟨lower, nonneg, sum, -⟩ := fits
    have total : sizeT (toInt (offset + length)) = (offset + length).toNat := by
      rw [toInt_of_range (by omega) sum, sizeT_of_range (by omega) sum]
    have range : length < 0x80000000 := by omega
    simp only [Call.perform, larger, total, sizeT_of_range nonneg range]
    exact step
  | extend newSize =>
    obtain ⟨room, eq, extended⟩ := extend_of_lt granted newSize holds fits
    rw [Call.perform, eq]
    cases room with
    | none => exact ⟨s, false, rfl, holds⟩
    | some s' => exact ⟨s', true, rfl, (extended s' rfl).1⟩
  | alloc n =>
    have enough : s.length + n ≤ s.size := fits
    rw [Call.perform]
    split_ifs with needless
    · have double : alignSize (s.size * 2) (s.length + n) = s.size * 2 := by
        rw [alignSize, if_neg (by omega)]
      obtain ⟨room, eq, extended⟩ := extend_of_lt granted (s.size * 2) holds (by omega)
      rw [swStringExtendAlign, double, eq]
      cases room with
      | none => exact ⟨s, false, rfl, holds⟩
      | some s' =>
        obtain ⟨holds', unchanged, larger⟩ := extended s' rfl
        exact ⟨_, true, rfl, holds'.alloc (by omega)⟩
    · exact ⟨_, true, rfl, holds.alloc enough⟩

theorem sound_of_holds (positive : 0 < pagesize) (small : pagesize < 0x80000000) :
    ∀ {calls : List (Call × Bool)} {s : SwString} {contents : List (Option UInt8)},
      s.Holds contents → Fits pagesize s calls → Sound pagesize s contents calls
  | [], _, _, holds, _ => ⟨holds.within, holds.take_eq⟩
  | call :: calls, s, contents, holds, fits => by
    obtain ⟨s', done, performed, holds'⟩ :=
      perform_of_fits call.2 positive small holds fits.1
    exact ⟨holds.within, holds.take_eq, s', done, performed,
      sound_of_holds positive small holds' (fits.2 s' done performed)⟩

/-- A run from a new string is sound, if all of its calls are right. -/
theorem sound_of_fits (positive : 0 < pagesize) (small : pagesize < 0x80000000) (size : Nat)
    {calls : List (Call × Bool)} (fits : Fits pagesize (swStringNew size) calls) :
    Sound pagesize (swStringNew size) [] calls :=
  sound_of_holds positive small ⟨rfl, Nat.zero_le _, rfl⟩ fits

end

theorem sound_append_grows : Sound 4096 (swStringNew 2) [] [(.append (fun _ => 0x61) 3, true)] :=
  sound_of_fits (by decide) (by decide) 2
    ⟨by simp [Call.Fits, Put, swStringNew], fun _ _ _ => trivial⟩

/-- Nine bytes are taken from a buffer of eight. -/
theorem not_sound_alloc : ¬ ∀ size calls, Sound 4096 (swStringNew size) [] calls := by
  intro sound
  obtain ⟨-, -, s', done, performed, within, -⟩ := sound 8 [(.alloc 9, true)]
  cases performed
  exact absurd within (by decide)

end PhpExts.Swoole.DynamicString
