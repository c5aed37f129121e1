import Mathlib

/-!
# Commands of several keys on a cluster

`cluster_mkey_cmd` gathers keys as long as their slot is the same, sends what it has gathered when
the slot changes, and the rest behind the loop. A run that cannot be sent ends the call; what has
been allocated is then released by `distcmd_resp_handler`, and by its caller again.

The runs are those of `List.splitBy`, and `mkeyCmd_splits_iff` says when all of it goes right.
-/

namespace PhpExts.Redis.Cluster

abbrev Key := List UInt8

inductive Reply (ρ : Type) where
  | mbulk (elements : List (Option ρ))
  | integer (value : Int)
  deriving DecidableEq

/-- `z_ret`, and what a method returns. -/
inductive Value (ρ : Type) where
  | array (elements : List (Option ρ))
  | long (value : Int)
  deriving DecidableEq

/-- What is allocated in a call: the two buffers of `clusterMultiCmd`, the context of each run,
`z_ret` and the elements of its array. -/
inductive Block where
  | cmd
  | args
  | context (run : Nat)
  | zval
  | elements
  deriving DecidableEq

inductive Event where
  | alloc (block : Block)
  | release (block : Block)
  deriving DecidableEq

inductive Method where
  | mget
  | del
  deriving DecidableEq

/-- `args` and `cmd` are the buffers of `clusterMultiCmd`, each as the keys in it. -/
structure Call (ρ : Type) where
  args : Option (List Key)
  cmd : Option (List Key)
  sent : List (Nat × List Key)
  ret : Value ρ
  returned : Option (Value ρ)
  log : List Event

variable {ρ : Type}

def Call.record (call : Call ρ) (events : List Event) : Call ρ :=
  { call with log := call.log ++ events }

def Reply.elements : Reply ρ → List (Option ρ)
  | .mbulk elements => elements
  | .integer _ => []

def Reply.count : Reply ρ → Int
  | .mbulk _ => 0
  | .integer value => value

/-- `add_next_index_zval`, for several elements. -/
def Value.addElements : Value ρ → List (Option ρ) → Value ρ
  | .array old, new => .array (old ++ new)
  | .long value, _ => .long value

def Value.addLong : Value ρ → Int → Value ρ
  | .array elements, _ => .array elements
  | .long old, new => .long (old + new)

/-- `cluster_mbulk_mget_resp`: with `RETVAL_ZVAL` the array is handed to the caller. -/
def clusterMbulkMgetResp (reply : Reply ρ) (run count : Nat) (last : Bool) (call : Call ρ) :
    Call ρ :=
  let elements := match reply with
    | .mbulk elements => elements
    | .integer _ => List.replicate count none
  let call := { call with ret := call.ret.addElements elements }
  let call := if last then
      { call.record [.release .elements, .release .zval] with returned := some call.ret }
    else call
  call.record [.release (.context run)]

def clusterDelResp (reply : Reply ρ) (run : Nat) (last : Bool) (call : Call ρ) : Call ρ :=
  match reply with
  | .mbulk _ => call.record [.release (.context run)]
  | .integer value =>
    let call := { call with ret := call.ret.addLong value }
    let call := if last then
        { call.record [.release .zval] with returned := some call.ret }
      else call
    call.record [.release (.context run)]

def Method.resp : Method → Reply ρ → Nat → Nat → Bool → Call ρ → Call ρ
  | .mget, reply, run, count, last, call => clusterMbulkMgetResp reply run count last call
  | .del, reply, run, _, last, call => clusterDelResp reply run last call

/-- What `zval_dtor` releases of `z_ret`. -/
def Method.dtor : Method → List Event
  | .mget => [.release .elements]
  | .del => []

def clusterMultiFree (call : Call ρ) : Call ρ :=
  call.record [.release .cmd, .release .args]

def clusterMultiAdd (key : Key) (call : Call ρ) : Call ρ :=
  match call.args with
  | none => { call.record [.alloc .args] with args := some [key] }
  | some keys => { call with args := some (keys ++ [key]) }

def clusterMultiFini (call : Call ρ) : Call ρ :=
  let call := if call.cmd.isSome then call else call.record [.alloc .cmd]
  { call with cmd := some (call.args.getD []) }

def clusterMultiClear (call : Call ρ) : Call ρ :=
  { call with cmd := some [], args := some [] }

/-- `distcmd_resp_handler`, without a transaction: a run has a reply unless it fails. -/
def distcmdRespHandler (method : Method) (replies : Nat → Option (Reply ρ)) (slot : Nat)
    (last : Bool) (call : Call ρ) : Int × Call ρ :=
  let call := clusterMultiFini call
  let run := call.sent.length
  let count := (call.args.getD []).length
  let call := call.record [.alloc (.context run)]
  let call := { call with sent := call.sent ++ [(slot, call.cmd.getD [])] }
  match replies run with
  | none =>
    (-1, (clusterMultiFree call).record (method.dtor ++ [.release (.context run)]))
  | some reply => (0, clusterMultiClear (method.resp reply run count last call))

/-- The loop of `cluster_mkey_cmd` and what follows it. The keys are those behind `get_key_ht`. -/
def mkeyLoop (method : Method) (hash : Key → Nat) (replies : Nat → Option (Reply ρ))
    (argc : Nat) : List Key → Nat → Nat → Call ρ → Int × Call ρ
  | [], slot, _, call =>
    if 0 < (call.args.getD []).length then
      let (sent, call) := distcmdRespHandler method replies slot true call
      if sent < 0 then (-1, clusterMultiFree call) else (0, clusterMultiFree call)
    else (0, clusterMultiFree call)
  | key :: rest, slot, i, call =>
    if slot ≠ hash key then
      let (sent, call) := distcmdRespHandler method replies slot (decide (i = argc)) call
      if sent < 0 then (-1, clusterMultiFree call)
      else mkeyLoop method hash replies argc rest (hash key) (i + 1) (clusterMultiAdd key call)
    else mkeyLoop method hash replies argc rest (hash key) (i + 1) (clusterMultiAdd key call)

def redisKeyPrefix (keyPrefix : Option Key) (key : Key) : Key :=
  keyPrefix.getD [] ++ key

def clusterMkeyCmd (method : Method) (hash : Key → Nat) (replies : Nat → Option (Reply ρ))
    (keyPrefix : Option Key) (keys : List Key) (call : Call ρ) : Int × Call ρ :=
  match keys.map (redisKeyPrefix keyPrefix) with
  | [] => (-1, call)
  | key :: rest =>
    mkeyLoop method hash replies keys.length rest (hash key) 1 (clusterMultiAdd key call)

/-- `z_ret` as `mget` and `cluster_generic_delete` create it. -/
def Method.start : Method → Call ρ
  | .mget => ⟨none, none, [], .array [], none, [.alloc .zval, .alloc .elements]⟩
  | .del => ⟨none, none, [], .long 0, none, [.alloc .zval]⟩

/-- `mget`, and `del` or `unlink`: nothing is returned for false. -/
def mkeyMethod (method : Method) (hash : Key → Nat) (replies : Nat → Option (Reply ρ))
    (keyPrefix : Option Key) (keys : List Key) : Call ρ :=
  let (done, call) := clusterMkeyCmd method hash replies keyPrefix keys method.start
  if done < 0 then
    { call.record (method.dtor ++ [.release .zval]) with returned := none }
  else call

/-- The maximal runs of keys of equal slot. -/
def runs (hash : Key → Nat) (keys : List Key) : List (List Key) :=
  keys.splitBy fun key next => hash key = hash next

def sendOf (hash : Key → Nat) (run : List Key) : Nat × List Key :=
  (hash (run.headD []), run)

def sendRuns (method : Method) (hash : Key → Nat) (replies : Nat → Option (Reply ρ)) :
    List (List Key) → Call ρ → Int × Call ρ
  | [], call => (0, clusterMultiFree call)
  | run :: rest, call =>
    let (sent, call) := distcmdRespHandler method replies (hash (run.headD [])) rest.isEmpty
      { call with args := some run }
    if sent < 0 then (-1, clusterMultiFree call) else sendRuns method hash replies rest call

variable {method : Method} {hash : Key → Nat} {replies : Nat → Option (Reply ρ)}

theorem isChain_of_slot {pending : List Key} {slot : Nat}
    (slots : ∀ key ∈ pending, hash key = slot) :
    pending.IsChain fun key next => (decide (hash key = hash next) : Bool) :=
  (List.pairwise_of_forall_mem_list fun key mem next member' => by
    rw [slots key mem, slots next member', decide_eq_true rfl]).isChain

theorem runs_pending {pending : List Key} {slot : Nat} (some : pending ≠ [])
    (slots : ∀ key ∈ pending, hash key = slot) : runs hash pending = [pending] :=
  List.splitBy_of_isChain some (isChain_of_slot slots)

theorem runs_append_cons {pending : List Key} {slot : Nat} {key : Key} (rest : List Key)
    (some : pending ≠ []) (slots : ∀ key ∈ pending, hash key = slot) (next : slot ≠ hash key) :
    runs hash (pending ++ key :: rest) = pending :: runs hash (key :: rest) := by
  rw [runs, List.splitBy_append_cons, ← runs, runs_pending some slots]
  · rfl
  · intro last isLast
    rw [slots last (List.mem_of_getLast? isLast)]
    exact decide_eq_false next

theorem slot_headD {pending : List Key} {slot : Nat} (some : pending ≠ [])
    (slots : ∀ key ∈ pending, hash key = slot) : hash (pending.headD []) = slot := by
  cases pending with
  | nil => exact absurd rfl some
  | cons key rest => exact slots key (.head _)

theorem distcmdRespHandler_args {slot : Nat} {last : Bool} {call : Call ρ}
    (sent : ¬ (distcmdRespHandler method replies slot last call).1 < 0) :
    (distcmdRespHandler method replies slot last call).2.args = some [] := by
  simp only [distcmdRespHandler] at sent ⊢
  split at sent
  · exact absurd (show (-1 : Int) < 0 by decide) sent
  · rfl

theorem sendRuns_args {parts : List (List Key)} (some : parts ≠ []) (call : Call ρ)
    (args : Option (List Key)) : sendRuns method hash replies parts { call with args := args } =
      sendRuns method hash replies parts call := by
  cases parts with
  | nil => exact absurd rfl some
  | cons run rest => rfl

theorem runs_ne_nil {keys : List Key} (some : keys ≠ []) : runs hash keys ≠ [] :=
  List.splitBy_ne_nil.mpr some

theorem mkeyLoop_eq {argc : Nat} (rest : List Key) {pending : List Key} {slot i : Nat}
    {call : Call ρ} (waiting : call.args = some pending) (some : pending ≠ [])
    (slots : ∀ key ∈ pending, hash key = slot) (count : i + rest.length = argc) :
    mkeyLoop method hash replies argc rest slot i call =
      sendRuns method hash replies (runs hash (pending ++ rest)) call := by
  induction rest generalizing pending slot i call with
  | nil =>
    have positive : 0 < (call.args.getD []).length := by
      rw [waiting]
      exact List.length_pos_iff.mpr some
    rw [List.append_nil, runs_pending some slots, mkeyLoop, if_pos positive, sendRuns,
      slot_headD some slots, ← waiting]
    rfl
  | cons key rest ih =>
    rw [mkeyLoop]
    by_cases next : slot = hash key
    · rw [if_neg (not_not.mpr next)]
      have added : (clusterMultiAdd key call).args = Option.some (pending ++ [key]) := by
        simp only [clusterMultiAdd, waiting]
      rw [ih added (by simp) (fun queued mem => ?_) (by simp at count; omega),
        List.append_assoc, List.singleton_append]
      · simp only [clusterMultiAdd, waiting]
        exact sendRuns_args (runs_ne_nil (by simp)) _ _
      · rcases List.mem_append.mp mem with early | isKey
        · exact (slots queued early).trans next
        · rw [List.mem_singleton.mp isKey]
    · have within : decide (i = argc) = (runs hash (key :: rest)).isEmpty := by
        rw [decide_eq_false (by simp at count; omega)]
        exact (List.isEmpty_eq_false_iff.mpr (runs_ne_nil (by simp))).symm
      have same : { call with args := Option.some pending } = call := by rw [← waiting]
      rw [if_pos next, runs_append_cons rest some slots next, sendRuns, slot_headD some slots,
        within, same]
      have emptied := @distcmdRespHandler_args _ method replies slot
        (runs hash (key :: rest)).isEmpty call
      generalize distcmdRespHandler method replies slot
        (runs hash (key :: rest)).isEmpty call = handled at emptied ⊢
      obtain ⟨sent, after⟩ := handled
      simp only at emptied ⊢
      by_cases failed : sent < 0
      · rw [if_pos failed, if_pos failed]
      · have added : (clusterMultiAdd key after).args = Option.some [key] := by
          simp only [clusterMultiAdd, emptied failed, List.nil_append]
        rw [if_neg failed, if_neg failed, ih added (by simp) (by simp) (by simp at count; omega)]
        simp only [clusterMultiAdd, emptied failed]
        exact sendRuns_args (runs_ne_nil (by simp)) _ _

/-! ## What a run does -/

/-- What a reply adds to `z_ret`. -/
def Value.extend : Value ρ → Option (Reply ρ) → Value ρ
  | .array old, reply => .array (old ++ reply.elim [] Reply.elements)
  | .long old, reply => .long (old + reply.elim 0 Reply.count)

/-- A node answers `MGET` with one element for each key, and `DEL` with a number. -/
def Method.Fits : Method → Reply ρ → Nat → Prop
  | .mget, reply, count => ∃ elements, reply = .mbulk elements ∧ elements.length = count
  | .del, reply, _ => ∃ value, reply = .integer value

def Method.expected (method : Method) (cmd : Bool) (run : Nat) : Block → Nat × Nat
  | .cmd => (if cmd then 1 else 0, 0)
  | .args => (1, 0)
  | .context n => if n < run then (1, 1) else (0, 0)
  | .zval => (1, 0)
  | .elements => (if method = .mget then 1 else 0, 0)

def tally (log : List Event) (block : Block) : Nat × Nat :=
  (log.count (.alloc block), log.count (.release block))

theorem tally_append (log events : List Event) (block : Block) :
    tally (log ++ events) block = tally log block + tally events block := by
  simp only [tally, List.count_append, Prod.mk_add_mk]

structure Between (method : Method) (call : Call ρ) : Prop where
  args : call.args = some []
  tally : ∀ block, tally call.log block =
    method.expected call.cmd.isSome call.sent.length block

theorem resp_spec {reply : Reply ρ} {count : Nat} (fits : method.Fits reply count) (run : Nat)
    (last : Bool) (call : Call ρ) : method.resp reply run count last call =
      { call with
        ret := call.ret.extend (some reply)
        returned := if last then some (call.ret.extend (some reply)) else call.returned
        log := call.log ++ (if last then method.dtor ++ [.release .zval] else []) ++
          [.release (.context run)] } := by
  cases method with
  | mget =>
    obtain ⟨elements, rfl, -⟩ := fits
    have extended : call.ret.addElements elements = call.ret.extend (some (.mbulk elements)) := by
      cases call.ret with
      | array old => rfl
      | long old => exact congrArg Value.long (Int.add_zero old).symm
    cases last <;> simp [Method.resp, clusterMbulkMgetResp, extended, Call.record, Method.dtor]
  | del =>
    obtain ⟨value, rfl⟩ := fits
    have extended : call.ret.addLong value = call.ret.extend (some (.integer value)) := by
      cases call.ret with
      | array old => exact congrArg Value.array (List.append_nil old).symm
      | long old => rfl
    cases last <;> simp [Method.resp, clusterDelResp, extended, Call.record, Method.dtor]

/-- What `cluster_multi_fini` and the context allocate. -/
def newBlocks (call : Call ρ) : List Event :=
  (if call.cmd.isSome then [] else [.alloc .cmd]) ++ [.alloc (.context call.sent.length)]

theorem handler_answered {slot : Nat} {last : Bool} {call : Call ρ} {keys : List Key}
    {reply : Reply ρ} (answered : replies call.sent.length = some reply)
    (fits : method.Fits reply keys.length) :
    distcmdRespHandler method replies slot last { call with args := some keys } =
      (0, { args := some []
            cmd := some []
            sent := call.sent ++ [(slot, keys)]
            ret := call.ret.extend (some reply)
            returned := if last then some (call.ret.extend (some reply)) else call.returned
            log := call.log ++ newBlocks call ++
              (if last then method.dtor ++ [.release .zval] else []) ++
              [.release (.context call.sent.length)] }) := by
  cases present : call.cmd <;>
    simp [distcmdRespHandler, clusterMultiFini, present, Call.record, answered,
      resp_spec fits, clusterMultiClear, newBlocks]

theorem handler_failed {slot : Nat} {last : Bool} {call : Call ρ} {keys : List Key}
    (failed : replies call.sent.length = none) :
    distcmdRespHandler method replies slot last { call with args := some keys } =
      (-1, { call with
            args := some keys
            cmd := some keys
            sent := call.sent ++ [(slot, keys)]
            log := call.log ++ newBlocks call ++ [.release .cmd, .release .args] ++
              (method.dtor ++ [.release (.context call.sent.length)]) }) := by
  cases present : call.cmd <;>
    simp [distcmdRespHandler, clusterMultiFini, present, Call.record, failed, newBlocks,
      clusterMultiFree]

theorem expected_run (call : Call ρ) (block : Block) :
    method.expected call.cmd.isSome call.sent.length block + tally (newBlocks call) block +
        tally [.release (.context call.sent.length)] block =
      method.expected true (call.sent.length + 1) block := by
  cases block with
  | cmd => cases present : call.cmd <;> simp [Method.expected, tally, newBlocks, present]
  | args | zval | elements =>
    cases present : call.cmd <;> simp [Method.expected, tally, newBlocks, present]
  | context n =>
    rcases Nat.lt_trichotomy n call.sent.length with earlier | rfl | later
    · cases present : call.cmd <;>
        simp [Method.expected, tally, newBlocks, present, earlier, earlier.ne',
          Nat.lt_succ_of_lt earlier]
    · cases present : call.cmd <;> simp [Method.expected, tally, newBlocks, present]
    · cases present : call.cmd <;>
        simp [Method.expected, tally, newBlocks, present, later.ne, later.not_gt,
          Nat.not_lt.mpr (Nat.succ_le_of_lt later)]

def Value.extendAll (replies : Nat → Option (Reply ρ)) (value : Value ρ) (from' count : Nat) :
    Value ρ :=
  (List.range' from' count).foldl (fun value run => value.extend (replies run)) value

theorem sendRuns_answered {before rest : List (List Key)} {call : Call ρ}
    (between : Between method call) (more : rest ≠ [])
    (answered : ∀ n (bound : n < before.length), ∃ reply,
      replies (call.sent.length + n) = some reply ∧ method.Fits reply before[n].length) :
    ∃ after : Call ρ, sendRuns method hash replies (before ++ rest) call =
        sendRuns method hash replies rest after ∧
      Between method after ∧ after.sent = call.sent ++ before.map (sendOf hash) ∧
      after.ret = call.ret.extendAll replies call.sent.length before.length ∧
      after.returned = call.returned := by
  induction before generalizing call with
  | nil => exact ⟨call, rfl, between, (List.append_nil _).symm, rfl, rfl⟩
  | cons run before ih =>
    obtain ⟨reply, isReply, fits⟩ := answered 0 (Nat.zero_lt_succ _)
    have isReply : replies call.sent.length = some reply := isReply
    have fits : method.Fits reply run.length := fits
    have notLast : (before ++ rest).isEmpty = false := by
      simp [more]
    obtain ⟨after, goesOn, betweenAfter, sent, ret, returned⟩ := @ih
      { args := some []
        cmd := some []
        sent := call.sent ++ [sendOf hash run]
        ret := call.ret.extend (some reply)
        returned := call.returned
        log := call.log ++ newBlocks call ++ [.release (.context call.sent.length)] }
      ⟨rfl, fun block => by
        rw [tally_append, tally_append, between.tally, expected_run]
        simp⟩ fun n bound => by
        obtain ⟨reply, isReply, fits⟩ := answered (n + 1) (Nat.succ_lt_succ bound)
        exact ⟨reply, by simpa [Nat.add_assoc, Nat.add_comm 1 n] using isReply, fits⟩
    refine ⟨after, ?_, betweenAfter, ?_, ?_, returned⟩
    · rw [List.cons_append, sendRuns, notLast, handler_answered isReply fits, ← goesOn]
      simp [sendOf]
    · rw [sent, List.map_cons, List.append_assoc, List.singleton_append]
    · rw [ret, Value.extendAll, Value.extendAll, List.length_cons, List.range'_succ,
        List.foldl_cons, isReply, List.length_append]
      rfl

theorem sendRuns_last {run : List Key} {call : Call ρ} {reply : Reply ρ}
    (between : Between method call) (answered : replies call.sent.length = some reply)
    (fits : method.Fits reply run.length) :
    ∃ after : Call ρ, sendRuns method hash replies [run] call = (0, after) ∧
      after.sent = call.sent ++ [sendOf hash run] ∧
      after.returned = some (call.ret.extend (some reply)) ∧
      ∀ block, ∃ count ≤ 1, tally after.log block = (count, count) := by
  refine ⟨clusterMultiFree
    { args := some []
      cmd := some []
      sent := call.sent ++ [sendOf hash run]
      ret := call.ret.extend (some reply)
      returned := some (call.ret.extend (some reply))
      log := call.log ++ newBlocks call ++ (method.dtor ++ [.release .zval]) ++
        [.release (.context call.sent.length)] }, ?_, rfl, rfl, fun block => ?_⟩
  · rw [sendRuns, List.isEmpty_nil, handler_answered answered fits]
    rfl
  · have reorder (a b c : Nat × Nat) : a + b + c = a + c + b :=
      Prod.ext (Nat.add_right_comm _ _ _) (Nat.add_right_comm _ _ _)
    simp only [clusterMultiFree, Call.record]
    rw [tally_append, tally_append, tally_append, tally_append, between.tally,
      reorder _ (tally (method.dtor ++ [Event.release Block.zval]) block), expected_run]
    cases block with
    | cmd => exact ⟨1, le_rfl, by cases method <;> rfl⟩
    | args => exact ⟨1, le_rfl, by cases method <;> rfl⟩
    | zval => exact ⟨1, le_rfl, by cases method <;> rfl⟩
    | elements => cases method with
      | mget => exact ⟨1, le_rfl, rfl⟩
      | del => exact ⟨0, Nat.zero_le 1, rfl⟩
    | context n =>
      by_cases sent : n < call.sent.length + 1
      · exact ⟨1, le_rfl, by cases method <;> simp [Method.expected, tally, Method.dtor, sent]⟩
      · exact ⟨0, Nat.zero_le 1,
          by cases method <;> simp [Method.expected, tally, Method.dtor, sent]⟩

theorem sendRuns_failed {run : List Key} {rest : List (List Key)} {call : Call ρ}
    (failed : replies call.sent.length = none) :
    ∃ after : Call ρ, sendRuns method hash replies (run :: rest) call = (-1, after) ∧
      after.sent = call.sent ++ [sendOf hash run] ∧ 2 ≤ (tally after.log .cmd).2 := by
  refine ⟨clusterMultiFree
    { call with
      args := some run
      cmd := some run
      sent := call.sent ++ [sendOf hash run]
      log := call.log ++ newBlocks call ++ [.release .cmd, .release .args] ++
        (method.dtor ++ [.release (.context call.sent.length)]) }, ?_, rfl, ?_⟩
  · rw [sendRuns, handler_failed failed]
    rfl
  · simp only [clusterMultiFree, Call.record]
    rw [tally_append, tally_append, tally_append]
    simp only [tally, Prod.snd_add, List.count_cons, List.count_nil]
    simp
    omega

def Method.answer (method : Method) (replies : Nat → Option (Reply ρ)) (count : Nat) : Value ρ :=
  match method with
  | .mget => .array ((List.range count).flatMap fun run => (replies run).elim [] Reply.elements)
  | .del => .long (((List.range count).map fun run => (replies run).elim 0 Reply.count).sum)

theorem extend_array (parts : List Nat) (old : List (Option ρ)) :
    parts.foldl (fun value run => value.extend (replies run)) (Value.array old) =
      .array (old ++ parts.flatMap fun run => (replies run).elim [] Reply.elements) := by
  induction parts generalizing old with
  | nil => simp
  | cons run rest ih => rw [List.foldl_cons, Value.extend, ih, List.flatMap_cons, List.append_assoc]

theorem extend_long (parts : List Nat) (old : Int) :
    parts.foldl (fun value run => value.extend (replies run)) (Value.long old) =
      .long (old + (parts.map fun run => (replies run).elim 0 Reply.count).sum) := by
  induction parts generalizing old with
  | nil => simp
  | cons run rest ih =>
    rw [List.foldl_cons, Value.extend, ih, List.map_cons, List.sum_cons, Int.add_assoc]

theorem extendAll_start (count : Nat) :
    (method.start (ρ := ρ)).ret.extendAll replies 0 count = method.answer replies count := by
  rw [Value.extendAll, ← List.range_eq_range']
  cases method with
  | mget => exact (extend_array _ _).trans (by simp [Method.answer])
  | del => exact (extend_long _ _).trans (by simp [Method.answer])

theorem zip_flatten {parts : List (List Key)} {elements : Nat → List (Option ρ)} (start : Nat)
    (each : ∀ n (bound : n < parts.length), (elements (start + n)).length = parts[n].length) :
    ((List.range' start parts.length).flatMap elements).length = parts.flatten.length ∧
      parts.flatten.zip ((List.range' start parts.length).flatMap elements) =
        (parts.zipIdx start).flatMap fun part => part.1.zip (elements part.2) := by
  induction parts generalizing start with
  | nil => exact ⟨rfl, rfl⟩
  | cons part rest ih =>
    have first : (elements start).length = part.length := each 0 (Nat.zero_lt_succ _)
    obtain ⟨lengths, zips⟩ := ih (start + 1) fun n bound => by
      rw [Nat.add_assoc, Nat.add_comm 1 n]
      exact each (n + 1) (Nat.succ_lt_succ bound)
    rw [List.length_cons, List.range'_succ, List.flatMap_cons, List.flatten_cons,
      List.length_append, List.length_append, lengths, first, List.zip_append first.symm, zips,
      List.zipIdx_cons, List.flatMap_cons]
    exact ⟨rfl, rfl⟩

/-- The keys go out in order in maximal runs of equal slot; the call returns their answers, or
false if a run fails; and what is allocated is released once. -/
structure Splits (method : Method) (hash : Key → Nat) (replies : Nat → Option (Reply ρ))
    (keyPrefix : Option Key) (keys : List Key) : Prop where
  sends : (mkeyMethod method hash replies keyPrefix keys).sent <+:
    (runs hash (keys.map (redisKeyPrefix keyPrefix))).map (sendOf hash)
  answered : (∀ n < (runs hash (keys.map (redisKeyPrefix keyPrefix))).length,
      replies n ≠ none) →
    (mkeyMethod method hash replies keyPrefix keys).sent =
        (runs hash (keys.map (redisKeyPrefix keyPrefix))).map (sendOf hash) ∧
      (mkeyMethod method hash replies keyPrefix keys).returned =
        some (method.answer replies (runs hash (keys.map (redisKeyPrefix keyPrefix))).length)
  paired : ∀ elements,
    (mkeyMethod method hash replies keyPrefix keys).returned = some (.array elements) →
    elements.length = keys.length ∧ (keys.map (redisKeyPrefix keyPrefix)).zip elements =
      (runs hash (keys.map (redisKeyPrefix keyPrefix))).zipIdx.flatMap fun run =>
        run.1.zip ((replies run.2).elim [] Reply.elements)
  failed : (∃ n < (runs hash (keys.map (redisKeyPrefix keyPrefix))).length,
      replies n = none) →
    (mkeyMethod method hash replies keyPrefix keys).returned = none
  released : ∀ block, ∃ count ≤ 1,
    tally (mkeyMethod method hash replies keyPrefix keys).log block = (count, count)

def opened (method : Method) : Call ρ :=
  { method.start with args := some [], log := (method.start (ρ := ρ)).log ++ [.alloc .args] }

@[simp] theorem opened_sent : (opened (ρ := ρ) method).sent = [] := by
  cases method <;> rfl

theorem between_opened : Between method (opened (ρ := ρ) method) where
  args := rfl
  tally := fun block => by
    cases method <;> cases block <;> rfl

theorem clusterMkeyCmd_eq {keyPrefix : Option Key} {keys : List Key} (some : keys ≠ []) :
    clusterMkeyCmd method hash replies keyPrefix keys method.start =
      sendRuns method hash replies (runs hash (keys.map (redisKeyPrefix keyPrefix)))
        (opened (ρ := ρ) method) := by
  cases keys with
  | nil => exact absurd rfl some
  | cons key rest =>
    rw [clusterMkeyCmd, List.map_cons]
    simp only
    rw [@mkeyLoop_eq _ _ _ _ _ _ [redisKeyPrefix keyPrefix key] _ _ _ (by cases method <;> rfl)
      (by simp) (by simp) (by simp [Nat.add_comm])]
    refine (sendRuns_args (runs_ne_nil (by simp)) _ (Option.some [])).symm.trans ?_
    cases method <;> rfl

theorem mkeyMethod_answered {keyPrefix : Option Key} {keys : List Key} (some : keys ≠ [])
    (fits : ∀ n (bound : n < (runs hash (keys.map (redisKeyPrefix keyPrefix))).length) reply,
      replies n = Option.some reply →
        method.Fits reply (runs hash (keys.map (redisKeyPrefix keyPrefix)))[n].length)
    (answered : ∀ n < (runs hash (keys.map (redisKeyPrefix keyPrefix))).length, replies n ≠ none) :
    (mkeyMethod method hash replies keyPrefix keys).sent =
        (runs hash (keys.map (redisKeyPrefix keyPrefix))).map (sendOf hash) ∧
      (mkeyMethod method hash replies keyPrefix keys).returned = Option.some
        (method.answer replies (runs hash (keys.map (redisKeyPrefix keyPrefix))).length) ∧
      ∀ block, ∃ count ≤ 1,
        tally (mkeyMethod method hash replies keyPrefix keys).log block = (count, count) := by
  have nonempty : runs hash (keys.map (redisKeyPrefix keyPrefix)) ≠ [] :=
    runs_ne_nil (by simpa using some)
  have result := @clusterMkeyCmd_eq _ method hash replies keyPrefix keys some
  generalize runs hash (keys.map (redisKeyPrefix keyPrefix)) = parts at *
  obtain ⟨before, run, rfl⟩ : ∃ before run, parts = before ++ [run] :=
    ⟨parts.dropLast, parts.getLast nonempty, (List.dropLast_concat_getLast nonempty).symm⟩
  have each : ∀ n (bound : n < (before ++ [run]).length), ∃ reply,
      replies n = Option.some reply ∧ method.Fits reply (before ++ [run])[n].length := by
    intro n bound
    obtain ⟨reply, isReply⟩ := Option.ne_none_iff_exists'.mp (answered n bound)
    exact ⟨reply, isReply, fits n bound reply isReply⟩
  obtain ⟨after, goesOn, between, sent, ret, -⟩ :=
    @sendRuns_answered _ method hash replies before [run] (opened method) between_opened
      (by simp) fun n bound => by
        obtain ⟨reply, isReply, fits⟩ := each n (by simp; omega)
        refine ⟨reply, by simpa using isReply, ?_⟩
        rwa [List.getElem_append_left bound] at fits
  have count : after.sent.length = before.length := by
    simp [sent]
  obtain ⟨reply, isReply, fits⟩ := each before.length (by simp)
  rw [List.getElem_concat_length rfl] at fits
  obtain ⟨final, last, sentLast, returned, released⟩ :=
    @sendRuns_last _ _ hash _ _ _ _ between (count ▸ isReply) fits
  have done : mkeyMethod method hash replies keyPrefix keys = final := by
    rw [mkeyMethod, result, goesOn, last]
    rfl
  rw [done]
  refine ⟨?_, ?_, released⟩
  · rw [sentLast, sent, opened_sent, List.nil_append, List.map_append, List.map_singleton]
  · rw [returned, ret, ← extendAll_start, List.length_append, List.length_singleton,
      Value.extendAll, Value.extendAll, List.range'_concat, List.foldl_concat, ← isReply]
    cases method <;> simp [opened, Method.start]

theorem mkeyMethod_failed {keyPrefix : Option Key} {keys : List Key} (some : keys ≠ [])
    (fits : ∀ n (bound : n < (runs hash (keys.map (redisKeyPrefix keyPrefix))).length) reply,
      replies n = Option.some reply →
        method.Fits reply (runs hash (keys.map (redisKeyPrefix keyPrefix)))[n].length)
    (failed : ∃ n < (runs hash (keys.map (redisKeyPrefix keyPrefix))).length, replies n = none) :
    (mkeyMethod method hash replies keyPrefix keys).sent <+:
        (runs hash (keys.map (redisKeyPrefix keyPrefix))).map (sendOf hash) ∧
      (mkeyMethod method hash replies keyPrefix keys).returned = none ∧
      2 ≤ (tally (mkeyMethod method hash replies keyPrefix keys).log .cmd).2 := by
  have result := @clusterMkeyCmd_eq _ method hash replies keyPrefix keys some
  generalize runs hash (keys.map (redisKeyPrefix keyPrefix)) = parts at *
  classical
  obtain ⟨bound, isFailed⟩ := Nat.find_spec failed
  have earlier : ∀ n < Nat.find failed, replies n ≠ none := fun n early none =>
    Nat.find_min failed early ⟨early.trans bound, none⟩
  generalize Nat.find failed = n at *
  obtain ⟨after, goesOn, -, sent, -, -⟩ :=
    @sendRuns_answered _ method hash replies (parts.take n) (parts.drop n) (opened method)
      between_opened (by simpa using bound) fun j early => by
        have early : j < n := by simp at early; omega
        obtain ⟨reply, isReply⟩ := Option.ne_none_iff_exists'.mp (earlier j early)
        refine ⟨reply, by simpa using isReply, ?_⟩
        rw [List.getElem_take]
        exact fits j (early.trans bound) reply isReply
  rw [List.take_append_drop, List.drop_eq_getElem_cons bound] at goesOn
  have count : after.sent.length = n := by
    simp [sent, bound.le]
  obtain ⟨final, last, sentLast, twice⟩ := @sendRuns_failed _ method hash _ parts[n]
    (parts.drop (n + 1)) _ (count.symm ▸ isFailed)
  have done : mkeyMethod method hash replies keyPrefix keys =
      { final.record (method.dtor ++ [.release .zval]) with returned := none } := by
    rw [mkeyMethod, result, goesOn, last]
    rfl
  rw [done]
  refine ⟨?_, rfl, ?_⟩
  · have sends : final.sent <+: parts.map (sendOf hash) := by
      rw [sentLast, sent, opened_sent, List.nil_append]
      refine ⟨(parts.drop (n + 1)).map (sendOf hash), ?_⟩
      calc (parts.take n).map (sendOf hash) ++ [sendOf hash parts[n]] ++
            (parts.drop (n + 1)).map (sendOf hash)
          = (parts.take n ++ parts[n] :: parts.drop (n + 1)).map (sendOf hash) := by
            simp only [List.map_append, List.map_cons, List.append_assoc, List.singleton_append]
        _ = parts.map (sendOf hash) := by
            rw [← List.drop_eq_getElem_cons bound, List.take_append_drop]
    exact sends
  · simp only [Call.record]
    rw [tally_append, Prod.snd_add]
    exact twice.trans (Nat.le_add_right _ _)

/-- **A call of several keys does what it should just when none of its runs fails.** -/
theorem mkeyCmd_splits_iff (method : Method) (hash : Key → Nat)
    (replies : Nat → Option (Reply ρ)) (keyPrefix : Option Key) (keys : List Key) (some : keys ≠ [])
    (fits : ∀ n (bound : n < (runs hash (keys.map (redisKeyPrefix keyPrefix))).length) reply,
      replies n = Option.some reply →
        method.Fits reply (runs hash (keys.map (redisKeyPrefix keyPrefix)))[n].length) :
    Splits method hash replies keyPrefix keys ↔
      ∀ n < (runs hash (keys.map (redisKeyPrefix keyPrefix))).length, replies n ≠ none := by
  constructor
  · rintro splits n bound failed
    obtain ⟨-, -, twice⟩ := mkeyMethod_failed some fits ⟨n, bound, failed⟩
    obtain ⟨count, atMost, counts⟩ := splits.released .cmd
    rw [counts] at twice
    exact absurd twice (Nat.not_le.mpr (Nat.lt_succ_of_le atMost))
  · intro answered
    obtain ⟨sent, returned, released⟩ := mkeyMethod_answered some fits answered
    refine ⟨sent ▸ List.prefix_refl _, fun _ => ⟨sent, returned⟩, fun elements isArray => ?_,
      fun ⟨n, bound, failed⟩ => absurd failed (answered n bound), released⟩
    have isAnswer := Option.some.inj (returned.symm.trans isArray)
    cases method with
    | del => exact absurd isAnswer (by simp [Method.answer])
    | mget =>
      have each : ∀ n (bound : n < (runs hash (keys.map (redisKeyPrefix keyPrefix))).length),
          ((replies (0 + n)).elim [] Reply.elements).length =
            (runs hash (keys.map (redisKeyPrefix keyPrefix)))[n].length := by
        intro n bound
        obtain ⟨reply, isReply⟩ := Option.ne_none_iff_exists'.mp (answered n bound)
        obtain ⟨own, rfl, length⟩ := fits n bound reply isReply
        rw [Nat.zero_add, isReply]
        exact length
      obtain ⟨lengths, zips⟩ := @zip_flatten _ _
        (fun run => (replies run).elim [] Reply.elements) 0 each
      have flat : (runs hash (keys.map (redisKeyPrefix keyPrefix))).flatten =
          keys.map (redisKeyPrefix keyPrefix) := List.flatten_splitBy _ _
      rw [Method.answer, Value.array.injEq, List.range_eq_range'] at isAnswer
      rw [isAnswer, flat] at lengths zips
      exact ⟨lengths.trans (List.length_map _), zips⟩

theorem splits_three : Splits .mget (fun key => key.length)
    (fun run => if run = 0 then some (.mbulk [some 5]) else if run = 1 then some (.mbulk [none])
      else some (.mbulk [some 7])) (some [1]) [[2], [2, 3], [4]] := by
  refine (mkeyCmd_splits_iff .mget _ _ _ _ (by decide) ?_).mpr (by decide)
  intro n bound reply answered
  have bound : n < 3 := bound
  obtain rfl | rfl | rfl : n = 0 ∨ n = 1 ∨ n = 2 := by omega
  all_goals exact ⟨_, (Option.some.inj answered).symm, rfl⟩

/-- The only run fails. -/
theorem splits_failed : ¬ ∀ (method : Method) (hash : Key → Nat)
    (replies : Nat → Option (Reply Nat)) (keyPrefix : Option Key) (keys : List Key),
    keys ≠ [] → (∀ n (bound : n < (runs hash (keys.map (redisKeyPrefix keyPrefix))).length) reply,
      replies n = some reply →
        method.Fits reply (runs hash (keys.map (redisKeyPrefix keyPrefix)))[n].length) →
    Splits method hash replies keyPrefix keys := by
  intro all
  have splits := all .del (fun _ => 0) (fun _ => none) none [[1]] (by decide) (by simp)
  obtain ⟨count, atMost, counts⟩ := splits.released .cmd
  have twice : tally (mkeyMethod (ρ := Nat) .del (fun _ => 0) (fun _ => none) none [[1]]).log .cmd =
    (1, 2) := by decide
  rw [twice] at counts
  exact absurd counts (by simp; omega)

end PhpExts.Redis.Cluster
