import PhpExts.Msgpack.Run

/-!
# Feeding a stream in chunks

`MessagePackUnpacker` appends every chunk to a buffer and calls the parser on
the whole buffer, from the offset and in the context the last call left. A step
that does not run out of bytes does the same on a prefix of the data as on all
of it (`step_append`), so a call on a prefix followed by a call on all of it is
one call (`executes_append`).

The one step this does not hold for is the header `0xd9`, which does not wait
for its length byte and its string. A well-formed object whose strings of that
kind are not empty and are not cut, and which is not nested deeper than the
stack, is parsed alike however it is cut (`feed_execute`).
-/

namespace PhpExts.Msgpack

open PhpExts.Zend PhpExts.Library
open List (length_append)

variable {φ τ υ ο : Type}

inductive Call (ο : Type) where
  | value (v : Value)
  | array (count : Nat)
  | map (count : Nat)
  | arrayItem (container obj : ο)
  | mapItem (container key val : ο)

def Callbacks.recorded (cb : Callbacks φ τ υ ο) : Callbacks φ (Call ο) υ ο where
  value v := record (.value v) (cb.value v)
  array n := record (.array n) (cb.array n)
  map n := record (.map n) (cb.map n)
  arrayItem c v := record (.arrayItem c v) (cb.arrayItem c v)
  mapItem c k v := record (.mapItem c k v) (cb.mapItem c k v)
where
  /-- Run a callback, with the call as its only log entry. -/
  record (c : Call ο) (m : Prog Unit φ τ υ ο) : Prog Unit φ (Call ο) υ ο :=
    fun u => ⟨[c], (m u).state, (m u).result⟩

/-- `php_msgpack_unpacker_t`: the buffer, the context with the offset, and whether
an object has been finished. -/
structure Unpacker (υ ο : Type) where
  buffer : Bytes
  context : Context υ ο
  finished : Bool

def Unpacker.construct (user : υ) : Unpacker υ ο := ⟨[], .init user, false⟩

def Unpacker.feed (unpacker : Unpacker υ ο) (str : Bytes) : Unpacker υ ο :=
  { unpacker with buffer := unpacker.buffer ++ str }

variable (cb : Callbacks φ τ υ ο)

/-- The call of the parser in `MessagePackUnpacker::execute`, on the buffer; after
a finished object the context begins anew, with the callbacks' state `fresh`. -/
def Unpacker.executeRun (fresh : υ) (unpacker : Unpacker υ ο) :
    Run Unit (Access φ) τ (Context υ ο) Ret :=
  execute cb unpacker.buffer (unpacker.buffer.length + 1)
    (if unpacker.finished then { Context.init fresh with p := unpacker.context.p }
      else unpacker.context)

/-- The unpacker after `MessagePackUnpacker::execute`. -/
def Unpacker.execute (fresh : υ) (unpacker : Unpacker υ ο) : Unpacker υ ο :=
  let run := unpacker.executeRun cb fresh
  { unpacker with
    context := run.state
    finished := unpacker.finished ||
      match run.result with
      | .ok .extraBytes => true
      | _ => false }

def Unpacker.feedAll (fresh : υ) (unpacker : Unpacker υ ο) :
    List Bytes → List (Run Unit (Access φ) τ (Context υ ο) Ret)
  | [] => []
  | chunk :: rest =>
    (unpacker.feed chunk).executeRun cb fresh ::
      ((unpacker.feed chunk).execute cb fresh).feedAll fresh rest

/-- The calls on the chunks together are the call on the whole: the same log, the
same final context and result, and `continue` from every call but the last. -/
structure SameAsWhole (whole : Run Unit (Access φ) τ (Context υ ο) Ret)
    (runs : List (Run Unit (Access φ) τ (Context υ ο) Ret)) : Prop where
  log : runs.flatMap Run.log = whole.log
  last : ∃ run, runs.getLast? = some run ∧ run.state = whole.state ∧ run.result = whole.result
  continues : ∀ run ∈ runs.dropLast, run.result = .ok .continue

def boundaries (start : Nat) : List Bytes → List Nat
  | [] => []
  | chunk :: rest => (start + chunk.length) :: boundaries (start + chunk.length) rest

/-- The strings with a header `0xd9` are not empty, and no chunk ends inside one. -/
def CutsOutside (spans : List (Nat × Nat)) (chunks : List Bytes) : Prop :=
  ∀ span ∈ spans, span.1 + 2 < span.2 ∧
    ∀ cut ∈ boundaries 0 chunks, cut ≤ span.1 ∨ span.2 ≤ cut

/-! ## A prefix of the data -/

section

variable {cb} {a b : Bytes} {s : Context υ ο}

theorem readByte_append {i : Nat} (inside : i < a.length) :
    (readByte (a ++ b) i : Machine φ τ υ ο UInt8) = readByte a i := by
  rw [readByte, readByte, List.getElem?_append_left inside]

theorem readBytes_append {i n : Nat} (inside : i + n ≤ a.length) :
    (readBytes (a ++ b) i n : Machine φ τ υ ο Bytes) = readBytes a i n := by
  induction n generalizing i with
  | zero => rfl
  | succ n ih => rw [readBytes, readBytes, readByte_append (by omega), ih (by omega)]

theorem load_append {i n : Nat} (inside : i + n ≤ a.length) :
    (load (a ++ b) i n : Machine φ τ υ ο Nat) = load a i n := by
  rw [load, load, readBytes_append inside]

theorem variableHeader_append {byte : Nat} (raw : byte = 0xd9 → raw8 cb (a ++ b) s = raw8 cb a s) :
    variableHeader cb (a ++ b) byte s = variableHeader cb a byte s := by
  rw [variableHeader.eq_def, variableHeader.eq_def]
  split
  all_goals first
    | rfl
    | exact raw rfl

theorem header_append {byte : Nat} (raw : byte = 0xd9 → raw8 cb (a ++ b) s = raw8 cb a s) :
    header cb (a ++ b) byte s = header cb a byte s := by
  have inner := variableHeader_append raw
  unfold header
  repeat' split
  all_goals first
    | rfl
    | exact inner

theorem trailed_append {cs : UnpackState} {trail n : Nat}
    (inside : n + max cs.width trail ≤ a.length) :
    trailed cb (a ++ b) cs trail n = trailed cb a cs trail n := by
  have loads {k : Nat} (fits : k ≤ cs.width) :
      (load (a ++ b) n k : Machine φ τ υ ο Nat) = load a n k := load_append (by omega)
  have reads : (readBytes (a ++ b) n trail : Machine φ τ υ ο Bytes) = readBytes a n trail :=
    readBytes_append (by omega)
  cases cs with
  | binValue | rawValue => simp only [trailed, reads]
  | header | raw8 => rfl
  | _ => simp only [trailed]; rw [loads (by decide)]

theorem raw8_append {length : UInt8} (found : a[s.p + 1]? = some length)
    (inside : s.p + 2 + length.toNat ≤ a.length) : raw8 cb (a ++ b) s = raw8 cb a s := by
  have bound : s.p + 1 < a.length := (List.getElem?_eq_some_iff.mp found).1
  have loaded : Prog.Returns (load a (s.p + 1) 1 : Machine φ τ υ ο Nat) s length.toNat s := by
    simp only [load, readBytes, Prog.returns_bind, Prog.returns_pure]
    exact ⟨[length], s, ⟨length, s, returns_readByte found, [], s, ⟨rfl, rfl⟩, rfl, rfl⟩,
      by simp [ofBigEndian], rfl⟩
  refine Prog.bind_congr_at rfl fun s₁ s₂ read => ?_
  obtain ⟨rfl, rfl⟩ := Prog.returns_read.mp read
  rw [load_append (by omega)]
  refine Prog.bind_congr_at rfl fun trail s₃ load => ?_
  obtain ⟨rfl, rfl⟩ := load.unique loaded
  refine Prog.bind_congr_at rfl fun _ s₄ _ => ?_
  rw [readBytes_append (by omega)]

theorem step_end {data : Bytes} (atEnd : s.p = data.length) :
    step cb data s = ⟨[], s, .ok .out⟩ := by
  rw [step, Prog.read_bind_apply, if_pos atEnd]
  rfl

theorem step_header {data : Bytes} (less : s.p < data.length) (state : s.cs = .header) :
    step cb data s = (readByte data s.p >>= fun byte => header cb data byte.toNat) s := by
  rw [step, Prog.read_bind_apply, if_neg (Nat.ne_of_lt less), if_pos state]

theorem step_wait {data : Bytes} (inside : s.p ≤ data.length) (size : data.length < 2 ^ 64)
    (state : s.cs ≠ .header) (short : data.length < s.p + s.trail) :
    step cb data s = ⟨[], s, .ok .out⟩ := by
  rcases Nat.eq_or_lt_of_le inside with atEnd | less
  · exact step_end atEnd
  · have left : WordSize.eight.sub data.length s.p = data.length - s.p :=
      WordSize.sub_eq inside size
    rw [step, Prog.read_bind_apply, if_neg (Nat.ne_of_lt less), if_neg state, fixedTrail,
      Prog.read_bind_apply, left, if_pos (by omega)]
    rfl

theorem step_trailed {data : Bytes} (less : s.p < data.length) (size : data.length < 2 ^ 64)
    (state : s.cs ≠ .header) (enough : s.p + s.trail ≤ data.length) : step cb data s =
      (moveTo (s.p + trailLess s.trail) >>= fun _ => trailed cb data s.cs s.trail s.p) s := by
  have left : WordSize.eight.sub data.length s.p = data.length - s.p :=
    WordSize.sub_eq (Nat.le_of_lt less) size
  rw [step, Prog.read_bind_apply, if_neg (Nat.ne_of_lt less), if_neg state, fixedTrail,
    Prog.read_bind_apply, left, if_neg (by omega)]

theorem step_append (ready : Ready s) (inside : s.p ≤ a.length) (size : (a ++ b).length < 2 ^ 64)
    (keeps : StepInside a s) :
    step cb a s = ⟨[], s, .ok .out⟩ ∨ step cb (a ++ b) s = step cb a s := by
  have longer : a.length ≤ (a ++ b).length := by
    rw [length_append]
    omega
  rcases Nat.eq_or_lt_of_le inside with atEnd | less
  · exact .inl (step_end atEnd)
  by_cases state : s.cs = .header
  · right
    rw [step_header less state, step_header (Nat.lt_of_lt_of_le less longer) state,
      readByte_append less]
    refine Prog.bind_congr_at rfl fun byte s' read => ?_
    have found := List.getElem?_eq_getElem less
    obtain ⟨rfl, rfl⟩ := read.unique (returns_readByte found)
    refine header_append fun isRaw => ?_
    have byte_eq : a[s'.p] = 0xd9 := UInt8.toNat_inj.mp isRaw
    obtain ⟨length, there, fits⟩ := (keeps less).1 state (by rw [found, byte_eq])
    exact raw8_append there (raw8_inside there fits)
  by_cases short : a.length < s.p + s.trail
  · exact .inl (step_wait inside (Nat.lt_of_le_of_lt longer size) state short)
  · right
    rw [step_trailed less (Nat.lt_of_le_of_lt longer size) state (by omega),
      step_trailed (Nat.lt_of_lt_of_le less longer) size state (by omega),
      trailed_append (bytes_inside ready (keeps less).2 state (by omega)).2]

end

/-! ## Calls with enough fuel -/

/-- The call from `s` announces `log`, leaves `t` and returns `ret`, however much
fuel is left over. -/
def Executes (cb : Callbacks φ τ υ ο) (data : Bytes) (s : Context υ ο) (log : List τ)
    (t : Context υ ο) (ret : Ret) : Prop :=
  ∀ fuel, data.length < s.p + fuel → execute cb data fuel s = ⟨log, t, .ok ret⟩

section

variable {cb} {a b data : Bytes} {spans : List (Nat × Nat)} {s t : Context υ ο}

theorem Executes.next {s' : Context υ ο} {log : List τ} {ret : Ret} (inside : s.p ≤ data.length)
    (first : Prog.Returns (step cb data) s .again s') (forward : s.p < s'.p)
    (rest : Executes cb data s' log t ret) :
    Executes cb data s ((step cb data s).log ++ log) t ret := by
  intro fuel enough
  cases fuel with
  | zero => omega
  | succ fuel =>
    rw [execute, Prog.bind_of_returns first]
    simp only [rest fuel (by omega)]

theorem Executes.finish (inside : s.p ≤ data.length)
    (last : Prog.Returns (step cb data) s .finish t) :
    Executes cb data s (step cb data s).log t .extraBytes := by
  intro fuel enough
  cases fuel with
  | zero => omega
  | succ fuel =>
    rw [execute, Prog.bind_of_returns last]
    simp [pure, Prog.ret]

theorem Executes.out (inside : s.p ≤ data.length)
    (last : step cb data s = ⟨[], s, .ok .out⟩) : Executes cb data s [] s .continue := by
  intro fuel enough
  cases fuel with
  | zero => omega
  | succ fuel =>
    rw [execute, Prog.bind_of_returns ⟨by rw [last], by rw [last]⟩, last]
    simp [pure, Prog.ret]

/-! ## Strings with a header `0xd9` -/

def Describes (data : Bytes) (spans : List (Nat × Nat)) : Prop :=
  ∀ span ∈ spans, span.1 + 2 < span.2 ∧ span.2 ≤ data.length ∧
    ∃ length, data[span.1 + 1]? = some length ∧ span.2 = span.1 + 2 + length.toNat

def Uncut (cut : Nat) (spans : List (Nat × Nat)) : Prop :=
  ∀ span ∈ spans, cut ≤ span.1 ∨ span.2 ≤ cut

theorem Spanned.stepInside (spanned : Spanned (a ++ b) spans s)
    (describes : Describes (a ++ b) spans) (uncut : Uncut a.length spans) : StepInside a s := by
  intro less
  refine ⟨fun state raw => ?_, fun other zero => ?_⟩
  · obtain ⟨stop, mem⟩ := spanned.start state (by rwa [List.getElem?_append_left less])
    obtain ⟨nonempty, -, length, found, stop_eq⟩ := describes _ mem
    simp only at nonempty found stop_eq
    have whole := uncut _ mem
    simp only at whole
    rw [List.getElem?_append_left (by omega)] at found
    refine ⟨length, found, ?_⟩
    rw [trailLess_of_pos (by omega) (Nat.lt_trans length.toNat_lt (by decide))]
    omega
  · have := spanned.waits other
    omega

theorem Spanned.stepInside_whole (spanned : Spanned data spans s)
    (describes : Describes data spans) : StepInside data s := by
  have all : data ++ [] = data := List.append_nil data
  refine (all.symm ▸ spanned : Spanned (data ++ []) spans s).stepInside
    (all.symm ▸ describes) fun span mem => .inr ?_
  exact (describes span mem).2.1

/-! ## A call on a prefix -/

theorem executes_of_leads (size : data.length < 2 ^ 64) (describes : Describes data spans)
    (ready : Ready s) (inside : s.p ≤ data.length)
    (leads : Leads cb data (Spanned data spans) s .finish t) :
    ∃ log, Executes cb data s log t .extraBytes := by
  generalize same : Label.finish = label at leads
  induction leads with
  | last here step =>
    subst same
    exact ⟨_, .finish inside step⟩
  | next here step _ ih =>
    obtain ⟨ready', inside', forward⟩ :=
      lands_of_returns ready inside size (here.stepInside_whole describes) step
    obtain ⟨log, executes⟩ := ih ready' inside' same
    exact ⟨_, .next inside step (forward rfl) executes⟩

/-- **A call on a prefix, and then a call on all of the data, is one call**: if the
object ends behind the prefix and the prefix ends inside no span, the call on the
prefix returns `continue`, and the parser goes on from the context it leaves. -/
theorem executes_append (size : (a ++ b).length < 2 ^ 64) (describes : Describes (a ++ b) spans)
    (uncut : Uncut a.length spans) (ready : Ready s) (inside : s.p ≤ a.length)
    (behind : a.length < t.p) (leads : Leads cb (a ++ b) (Spanned (a ++ b) spans) s .finish t) :
    ∃ m log, Executes cb a s log m .continue ∧ Ready m ∧ m.p ≤ a.length ∧
      Leads cb (a ++ b) (Spanned (a ++ b) spans) m .finish t ∧
      ∀ rest, Executes cb (a ++ b) m rest t .extraBytes →
        Executes cb (a ++ b) s (log ++ rest) t .extraBytes := by
  have longer : a.length ≤ (a ++ b).length := by
    rw [length_append]
    omega
  generalize same : Label.finish = label at leads
  induction leads with
  | @last s t label here step =>
    subst same
    have keeps := here.stepInside describes uncut
    rcases step_append ready inside size keeps with waits | alike
    · exact ⟨s, [], .out inside waits, ready, inside, .last here step, fun rest call => call⟩
    · have lands := lands_of_returns ready inside (Nat.lt_of_le_of_lt longer size) keeps
        (Prog.Returns.of_eq alike step)
      exact absurd lands.2.1 (by omega)
  | @next s s' t label here step rest ih =>
    subst same
    have keeps := here.stepInside describes uncut
    rcases step_append ready inside size keeps with waits | alike
    · exact ⟨s, [], .out inside waits, ready, inside, .next here step rest,
        fun rest call => call⟩
    · have step' := Prog.Returns.of_eq alike step
      obtain ⟨ready', inside', forward⟩ :=
        lands_of_returns ready inside (Nat.lt_of_le_of_lt longer size) keeps step'
      obtain ⟨m, log, call, readyM, insideM, leads, whole⟩ := ih ready' inside' behind rfl
      refine ⟨m, _, .next inside step' (forward rfl) call, readyM, insideM, leads,
        fun rest call => ?_⟩
      have executes := Executes.next (Nat.le_trans inside longer) step (forward rfl)
        (whole rest call)
      rwa [alike, ← List.append_assoc] at executes

end

section

variable {data : Bytes}

theorem describes_append {xs ys : List (Nat × Nat)} (left : Describes data xs)
    (right : Describes data ys) : Describes data (xs ++ ys) := fun span mem =>
  (List.mem_append.mp mem).elim (left span) (right span)

theorem describes_scalar {x : Scalar} {i : Nat} (fits : x.Fits) (found : At data i x.bytes)
    (nonempty : ∀ span ∈ x.raw8Spans i, span.1 + 2 < span.2) : Describes data (x.raw8Spans i) := by
  intro span mem
  have positive := nonempty span mem
  unfold Scalar.raw8Spans at mem
  split at mem
  · rename_i bytes
    obtain rfl := List.mem_singleton.mp mem
    have fits : bytes.length < 256 := fits
    have there : At data (i + 1) (bigEndian 1 bytes.length ++ bytes) := found.tail
    have inside := there.le
    rw [length_append, length_bigEndian] at inside
    refine ⟨positive, by simp only; omega, UInt8.ofNat (bytes.length / 256 ^ 0), there.left.head, ?_⟩
    rw [UInt8.toNat_ofNat', pow_zero, Nat.div_one]
    simp only
    omega
  · cases mem

mutual

theorem describes_msg : (m : Msg) → {i : Nat} → m.Fits → At data i m.bytes →
    (∀ span ∈ m.raw8Spans i, span.1 + 2 < span.2) → Describes data (m.raw8Spans i)
  | .scalar _, _, fits, found, nonempty => describes_scalar fits found nonempty
  | .pad m, _, fits, found, nonempty => describes_msg m fits found.tail nonempty
  | .array _ items, _, fits, found, nonempty => describes_items items fits.2 found.right nonempty
  | .map _ pairs, _, fits, found, nonempty => describes_pairs pairs fits.2 found.right nonempty

theorem describes_items : (items : List Msg) → {i : Nat} → ItemsFit items →
    At data i (itemsBytes items) → (∀ span ∈ itemsRaw8Spans i items, span.1 + 2 < span.2) →
    Describes data (itemsRaw8Spans i items)
  | [], _, _, _, _ => nofun
  | m :: rest, _, fits, found, nonempty =>
    describes_append
      (describes_msg m fits.1 found.left fun span mem =>
        nonempty span (List.mem_append_left _ mem))
      (describes_items rest fits.2 found.right fun span mem =>
        nonempty span (List.mem_append_right _ mem))

theorem describes_pairs : (pairs : List (Msg × Msg)) → {i : Nat} → PairsFit pairs →
    At data i (pairsBytes pairs) → (∀ span ∈ pairsRaw8Spans i pairs, span.1 + 2 < span.2) →
    Describes data (pairsRaw8Spans i pairs)
  | [], _, _, _, _ => nofun
  | (k, v) :: rest, _, fits, found, nonempty =>
    describes_append
      (describes_msg k fits.1 found.left fun span mem =>
        nonempty span (List.mem_append_left _ mem))
      (describes_append
        (describes_msg v fits.2.1 found.right.left fun span mem =>
          nonempty span (List.mem_append_right _ (List.mem_append_left _ mem)))
        (describes_pairs rest fits.2.2 found.right.right fun span mem =>
          nonempty span (List.mem_append_right _ (List.mem_append_right _ mem))))

end

end

variable {cb} {spans : List (Nat × Nat)} {fresh : υ} {t : Context υ ο}

/-- The induction is on the chunks that are left; the unpacker holds the chunks
before them. -/
theorem sameAsWhole_feedAll {data : Bytes} (size : data.length < 2 ^ 64)
    (describes : Describes data spans) (final : t.p = data.length) :
    (chunks : List Bytes) → (unpacker : Unpacker υ ο) → chunks ≠ [] →
    (∀ chunk ∈ chunks, chunk ≠ []) → unpacker.buffer ++ chunks.flatten = data →
    unpacker.finished = false →
    (∀ cut ∈ boundaries unpacker.buffer.length chunks, Uncut cut spans) →
    Ready unpacker.context → unpacker.context.p ≤ unpacker.buffer.length →
    Leads cb data (Spanned data spans) unpacker.context .finish t →
    ∃ log, Executes cb data unpacker.context log t .extraBytes ∧
      SameAsWhole ⟨log, t, .ok .extraBytes⟩ (unpacker.feedAll cb fresh chunks)
  | [], _, nonempty, _, _, _, _, _, _, _ => absurd rfl nonempty
  | [chunk], unpacker, _, _, all, running, _, ready, inside, leads => by
    have all : unpacker.buffer ++ chunk = data := by simpa using all
    have inside' : unpacker.context.p ≤ data.length := by
      rw [← all, length_append]
      omega
    obtain ⟨log, executes⟩ := executes_of_leads size describes ready inside' leads
    have run : (unpacker.feed chunk).executeRun cb fresh = ⟨log, t, .ok .extraBytes⟩ := by
      simp only [Unpacker.executeRun, Unpacker.feed, running, all, Bool.false_eq_true, if_false]
      exact executes _ (by omega)
    refine ⟨log, executes, ?_, ⟨⟨log, t, .ok .extraBytes⟩, ?_, rfl, rfl⟩, ?_⟩
    · simp [Unpacker.feedAll, run]
    · simp [Unpacker.feedAll, run]
    · intro r mem
      cases mem
  | chunk :: next :: rest, unpacker, _, nonempty, all, running, uncut, ready, inside, leads => by
    have all' : unpacker.buffer ++ chunk ++ (next :: rest).flatten = data := by
      rw [← all, List.append_assoc]
      rfl
    have more : next ≠ [] := nonempty next (by simp)
    have behind : (unpacker.buffer ++ chunk).length < t.p := by
      have : 0 < next.length := List.length_pos_iff.mpr more
      rw [final, ← all']
      simp only [length_append, List.flatten_cons]
      omega
    have boundary : Uncut (unpacker.buffer ++ chunk).length spans := by
      rw [length_append]
      exact uncut _ (.head _)
    obtain ⟨m, log, call, readyM, insideM, leadsM, whole⟩ :=
      executes_append (a := unpacker.buffer ++ chunk) (b := (next :: rest).flatten)
        (by rwa [all']) (by rwa [all']) boundary ready
        (by rw [length_append]; omega) behind (by rwa [all'])
    rw [all'] at leadsM whole
    have run : (unpacker.feed chunk).executeRun cb fresh = ⟨log, m, .ok .continue⟩ := by
      simp only [Unpacker.executeRun, Unpacker.feed, running, Bool.false_eq_true, if_false]
      exact call _ (by omega)
    have after : (unpacker.feed chunk).execute cb fresh =
        ⟨unpacker.buffer ++ chunk, m, false⟩ := by
      rw [Unpacker.execute, run]
      simp [Unpacker.feed, running]
    obtain ⟨log', executes, same⟩ := sameAsWhole_feedAll size describes final (next :: rest)
      ⟨unpacker.buffer ++ chunk, m, false⟩ (by simp)
      (fun c mem => nonempty c (.tail _ mem)) all' rfl
      (fun cut mem => uncut cut (.tail _ (by
        rwa [← length_append]))) readyM insideM leadsM
    have runs : unpacker.feedAll cb fresh (chunk :: next :: rest) =
        ⟨log, m, .ok .continue⟩ ::
          (⟨unpacker.buffer ++ chunk, m, false⟩ : Unpacker υ ο).feedAll cb fresh
            (next :: rest) := by
      rw [Unpacker.feedAll, run, after]
    have later : (⟨unpacker.buffer ++ chunk, m, false⟩ : Unpacker υ ο).feedAll cb fresh
        (next :: rest) ≠ [] := by simp [Unpacker.feedAll]
    refine ⟨log ++ log', whole _ executes, ?_, ?_, ?_⟩
    · rw [runs, List.flatMap_cons, same.log]
    · rw [runs, List.getLast?_cons_of_ne_nil later]
      exact same.last
    · rw [runs, List.dropLast_cons_of_ne_nil later]
      intro run mem
      rcases List.mem_cons.mp mem with rfl | mem
      · rfl
      · exact same.continues run mem

/-- The stream is independent of its chunks: one call on the whole of it returns with
the object, behind the last byte, and the calls on the chunks are that call. -/
structure Streams (cb : Callbacks φ τ υ ο) (fresh : υ) (whole : Bytes) (chunks : List Bytes)
    (obj : ο) (u : υ) : Prop where
  returns : (((Unpacker.construct fresh).feed whole).executeRun cb fresh).result = .ok .extraBytes
  data : (((Unpacker.construct fresh).feed whole).executeRun cb fresh).state.data = some obj
  user : (((Unpacker.construct fresh).feed whole).executeRun cb fresh).state.user = u
  offset : (((Unpacker.construct fresh).feed whole).executeRun cb fresh).state.p = whole.length
  same : SameAsWhole (((Unpacker.construct fresh).feed whole).executeRun cb fresh)
    ((Unpacker.construct fresh).feedAll cb fresh chunks)

theorem streams_of_outside (m : Msg) (fits : m.Fits) (size : m.bytes.length < 2 ^ 64)
    (room : m.depth ≤ embedStackSize) (chunks : List Bytes) (whole : chunks.flatten = m.bytes)
    (nonempty : ∀ chunk ∈ chunks, chunk ≠ []) (outside : CutsOutside (m.raw8Spans 0) chunks)
    {obj : ο} {u : υ} (made : Prog.Returns (m.eval cb) fresh obj u) :
    Streams cb fresh m.bytes chunks obj u := by
  have found : At m.bytes 0 m.bytes := ⟨[], [], by simp, rfl⟩
  have describes : Describes m.bytes (m.raw8Spans 0) :=
    describes_msg m fits found fun span mem => (outside span mem).1
  have arrived : Arrives cb m.bytes (m.raw8Spans 0) (Context.init fresh)
      (0 + m.bytes.length) obj u :=
    arrives_msg size m fits rfl found (fun span mem => ⟨(outside span mem).1, mem⟩)
      (by simpa [Context.init] using room) made
  obtain ⟨s₁, position, stack, user, leads⟩ := arrived
  have finished := leads .finish { s₁ with data := some obj, p := s₁.p + 1 } (by
    simp only [Context.init, push, finish, Prog.returns_bind, Prog.returns_update,
      Prog.returns_pure]
    exact ⟨(), _, rfl, trivial, rfl⟩)
  have cutUp : chunks ≠ [] := by
    rintro rfl
    rw [← whole] at position
    cases position
  have ready : Ready (Context.init fresh : Context υ ο) :=
    ⟨.inl (Nat.zero_le _), Nat.two_pow_pos 32, nofun⟩
  obtain ⟨log, executes, same⟩ := sameAsWhole_feedAll size describes
    (by simp only; omega) chunks (Unpacker.construct fresh) cutUp nonempty
    (by simpa [Unpacker.construct] using whole) rfl
    (fun cut mem span inner => (outside span inner).2 cut mem) ready (Nat.zero_le _)
    finished
  have run : ((Unpacker.construct fresh).feed m.bytes).executeRun cb fresh =
      ⟨log, { s₁ with data := some obj, p := s₁.p + 1 }, .ok .extraBytes⟩ :=
    executes (m.bytes.length + 1) (Nat.lt_add_left _ (Nat.lt_succ_self _))
  refine ⟨?_, ?_, ?_, ?_, ?_⟩
  · rw [run]
  · rw [run]
  · rw [run]
    exact user
  · rw [run]
    simp only
    omega
  · rwa [run]

end PhpExts.Msgpack
