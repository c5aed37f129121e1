import PhpExts.Redis.ClusterTransaction

/-!
# EXEC on a cluster

`EXEC` goes to each node of the transaction once, at the first queued command whose slot is the
node's, and what has come of it is recorded for that slot alone. `exec` then reads one reply for
each queued command of a slot whose record says that there is one.

The records of the other slots are those of earlier transactions: `Settled` is what a transaction
needs for its replies to be collected.
-/

namespace PhpExts.Redis.Cluster

open Function (update update_of_ne)

/-! ## The commands of a transaction -/

structure Item (ρ : Type) where
  slot : Nat
  reply : ρ
  deriving DecidableEq

/-- What a node answers to `EXEC`. -/
inductive ExecReply where
  | array
  | nil
  | error
  deriving DecidableEq

variable {ρ : Type}

/-- One command of a transaction: `MULTI` goes before the first to a node. Where the connection
has unread replies of earlier commands, these are taken for the replies to `MULTI` and to the
command, and what comes of it depends on their bytes: the transaction is followed no further. -/
def queueItem (c : RedisCluster ρ) (item : Item ρ) : Option (RedisCluster ρ) :=
  if (c.slotSock item.slot).unread = [] then
    some { c.setSock (c.master item.slot)
        { c.slotSock item.slot with mode := .multi, connected := true } with
      multiHead := c.multiHead ++ [item.slot] }
  else none

def queueItems : List (Item ρ) → RedisCluster ρ → Option (RedisCluster ρ)
  | [], c => some c
  | item :: rest, c => (queueItem c item).bind (queueItems rest)

def execReplies (master : Nat → Nat) (items : List (Item ρ)) (node : Nat) : List (Unread ρ) :=
  (items.filter (master ·.slot = node)).map (.reply ·.reply)

/-- `cluster_send_exec`: `reply_len` is cleared for each response, and it is the number of replies
in an array and -1 for a nil. -/
def clusterSendExec (outcome : Nat → ExecReply) (items : List (Item ρ)) (c : RedisCluster ρ)
    (slot : Nat) : Int × RedisCluster ρ :=
  let node := c.master slot
  let replies := execReplies c.master items node
  let (retval, replyLen, unread) : Int × Int × List (Unread ρ) := match outcome node with
    | .array => (0, replies.length, replies)
    | .nil => (0, -1, [])
    | .error => (-1, 0, [])
  (retval,
    { c.setSock node { c.sock node with unread := (c.sock node).unread ++ unread } with
      multiLen := update c.multiLen slot (if replyLen > 0 then 1 else -1) })

/-- The first loop of `exec`. A node that has answered `EXEC`, be it with an error, is out of its
transaction and refuses the `DISCARD` that `cluster_abort_exec` sends. -/
def sendItems (outcome : Nat → ExecReply) (items : List (Item ρ)) :
    List (Item ρ) → RedisCluster ρ → Int × RedisCluster ρ
  | [], c => (0, c)
  | item :: rest, c =>
    if (c.slotSock item.slot).mode = .multi then
      let (sent, c) := clusterSendExec outcome items c item.slot
      if sent < 0 then
        let discard := fun node => if node = c.master item.slot then .refused else .accepted
        (-1, (clusterAbortExec discard c).2)
      else
        sendItems outcome items rest (c.setSock (c.master item.slot)
          { c.slotSock item.slot with mode := .atomic, watching := false })
    else sendItems outcome items rest c

/-- `cluster_multi_mbulk_resp`: an entry is `none` for `false`, and a reply that does not come
makes the result false. -/
def multiMbulkResp : List (Item ρ) → RedisCluster ρ → Option (List (Option ρ)) × RedisCluster ρ
  | [], c => (some [], c)
  | item :: rest, c =>
    if c.multiLen item.slot > -1 then
      match (c.slotSock item.slot).unread with
      | .reply reply :: unread =>
        let (results, c) := multiMbulkResp rest
          (c.setSock (c.master item.slot) { c.slotSock item.slot with unread := unread })
        (results.map (some reply :: ·), c)
      | _ => (none, c)
    else
      let (results, c) := multiMbulkResp rest c
      (results.map (none :: ·), c)

/-- `CLUSTER_FREE_QUEUE` and `CLUSTER_RESET_MULTI`. -/
def clusterResetMulti (c : RedisCluster ρ) : RedisCluster ρ :=
  { c with
    multiHead := []
    sock := fun node =>
      if node ∈ c.nodes then { c.sock node with mode := .atomic, watching := false }
      else c.sock node
    mode := .atomic }

/-- `RedisCluster::exec`: without a result it has returned false or thrown an exception. -/
def exec (outcome : Nat → ExecReply) (items : List (Item ρ)) (c : RedisCluster ρ) :
    Option (List (Option ρ)) × RedisCluster ρ :=
  if c.mode ≠ .multi then (none, c)
  else
    let (sent, c) := sendItems outcome items items c
    if sent < 0 then (none, clusterResetMulti c)
    else
      let (result, c) := multiMbulkResp items c
      (result, clusterResetMulti c)

/-- A transaction from `multi` to `exec`. -/
structure Transaction (ρ : Type) where
  items : List (Item ρ)
  outcome : Nat → ExecReply

/-- All of it on one client; there is no result of what is not followed (`queueItem`). -/
def transact (transaction : Transaction ρ) (c : RedisCluster ρ) :
    Option (Option (List (Option ρ)) × RedisCluster ρ) :=
  (queueItems transaction.items { c with mode := .multi }).map
    (exec transaction.outcome transaction.items)

def Queued (master : Nat → Nat) (items : List (Item ρ)) (node : Nat) : Prop :=
  ∃ item ∈ items, master item.slot = node

instance (master : Nat → Nat) (items : List (Item ρ)) (node : Nat) :
    Decidable (Queued master items node) :=
  inferInstanceAs (Decidable (∃ item ∈ items, master item.slot = node))

@[simp] theorem queued_nil (master : Nat → Nat) (node : Nat) :
    ¬ Queued master ([] : List (Item ρ)) node := by
  rintro ⟨item, mem, -⟩
  cases mem

@[simp] theorem queued_cons (master : Nat → Nat) (item : Item ρ) (rest : List (Item ρ))
    (node : Nat) : Queued master (item :: rest) node ↔
      master item.slot = node ∨ Queued master rest node := by
  simp only [Queued, List.mem_cons, exists_eq_or_imp]

theorem queueItems_spec {items : List (Item ρ)} {c : RedisCluster ρ}
    (clean : ∀ node, (c.sock node).unread = []) : ∃ sock : Nat → RedisSock ρ, queueItems items c =
        some { c with sock := sock, multiHead := c.multiHead ++ items.map (·.slot) } ∧
      (∀ node, (sock node).unread = []) ∧
      ∀ node, Queued c.master items node ∨ (c.sock node).mode = .multi →
        (sock node).mode = .multi := by
  induction items generalizing c with
  | nil =>
    refine ⟨c.sock, ?_, clean, fun node queued => queued.resolve_left (queued_nil _ _)⟩
    rw [queueItems, List.map_nil, List.append_nil]
  | cons item rest ih =>
    have first : queueItem c item = some _ := if_pos (clean _)
    rw [queueItems, first, Option.bind_some]
    obtain ⟨sock, result, cleanAfter, multi⟩ := @ih
      { c.setSock (c.master item.slot)
          { c.slotSock item.slot with mode := .multi, connected := true } with
        multiHead := c.multiHead ++ [item.slot] } fun node => by
      by_cases same : node = c.master item.slot
      · subst same
        exact (congrArg RedisSock.unread (setSock_self _ _)).trans (clean _)
      · exact (congrArg RedisSock.unread (setSock_of_ne same _)).trans (clean node)
    refine ⟨sock, ?_, cleanAfter, fun node queued => multi node ?_⟩
    · rw [result]
      simp only [RedisCluster.setSock, List.map_cons, List.append_assoc, List.singleton_append]
    · by_cases same : node = c.master item.slot
      · subst same
        exact .inr (congrArg RedisSock.mode (setSock_self _ _))
      · rw [queued_cons] at queued
        rcases queued with (isFirst | later) | multi
        · exact absurd isFirst.symm same
        · exact .inl later
        · exact .inr ((congrArg RedisSock.mode (setSock_of_ne same _)).trans multi)

section

variable {outcome : Nat → ExecReply} {items : List (Item ρ)} {c : RedisCluster ρ}

def firstSlot (master : Nat → Nat) (items : List (Item ρ)) (node : Nat) : Option Nat :=
  (items.find? (master ·.slot = node)).map (·.slot)

def execUnread (outcome : Nat → ExecReply) (master : Nat → Nat) (items : List (Item ρ))
    (node : Nat) : List (Unread ρ) :=
  if outcome node = .array then execReplies master items node else []

def sentSock (outcome : Nat → ExecReply) (items : List (Item ρ)) (c : RedisCluster ρ)
    (node : Nat) : RedisSock ρ :=
  { c.sock node with
    mode := .atomic
    watching := false
    unread := (c.sock node).unread ++ execUnread outcome c.master items node }

def execRecord (outcome : Nat → ExecReply) (node : Nat) : Int :=
  if outcome node = .array then 1 else -1

variable {item : Item ρ} {rest : List (Item ρ)}

theorem firstSlot_cons_self {master : Nat → Nat} {node : Nat} (same : master item.slot = node) :
    firstSlot master (item :: rest) node = some item.slot := by
  rw [firstSlot, List.find?_cons_of_pos (by simpa using same), Option.map_some]

theorem firstSlot_cons_ne {master : Nat → Nat} {node : Nat} (away : master item.slot ≠ node) :
    firstSlot master (item :: rest) node = firstSlot master rest node := by
  rw [firstSlot, List.find?_cons_of_neg (by simpa using away), firstSlot]

theorem execReplies_length (mem : item ∈ items) :
    ((execReplies c.master items (c.master item.slot)).length : Int) > 0 := by
  have found : item ∈ items.filter (c.master ·.slot = c.master item.slot) :=
    List.mem_filter.mpr ⟨mem, by simp⟩
  rw [execReplies, List.length_map]
  exact_mod_cast List.length_pos_of_mem found

theorem clusterSendExec_ran (mem : item ∈ items)
    (ran : outcome (c.master item.slot) ≠ .error) :
    clusterSendExec outcome items c item.slot =
      (0, { c.setSock (c.master item.slot) { c.slotSock item.slot with
            unread := (c.slotSock item.slot).unread ++
              execUnread outcome c.master items (c.master item.slot) } with
        multiLen := update c.multiLen item.slot
          (execRecord outcome (c.master item.slot)) }) := by
  have positive := execReplies_length (c := c) mem
  cases found : outcome (c.master item.slot) with
  | array =>
    simp only [clusterSendExec, found, if_pos positive, execUnread, execRecord, if_true,
      RedisCluster.slotSock]
  | nil =>
    simp [clusterSendExec, found, execUnread, execRecord, RedisCluster.slotSock]
  | error => exact absurd found ran

theorem clusterSendExec_error {slot : Nat} (failed : outcome (c.master slot) = .error) :
    clusterSendExec outcome items c slot =
      (-1, { c with multiLen := update c.multiLen slot (-1) }) := by
  simp only [clusterSendExec, failed, List.append_nil, RedisCluster.setSock]
  rw [Function.update_eq_self_iff.mpr rfl]
  rfl

theorem sendItems_multi (mem : item ∈ items)
    (here : (c.slotSock item.slot).mode = .multi)
    (ran : outcome (c.master item.slot) ≠ .error) :
    sendItems outcome items (item :: rest) c = sendItems outcome items rest
      { c with
        sock := update c.sock (c.master item.slot)
          (sentSock outcome items c (c.master item.slot))
        multiLen := update c.multiLen item.slot
          (execRecord outcome (c.master item.slot)) } := by
  rw [sendItems, if_pos here, clusterSendExec_ran mem ran]
  simp only [RedisCluster.setSock, RedisCluster.slotSock, Function.update_self,
    Function.update_idem, sentSock]
  rfl

theorem sendItems_error
    (here : (c.slotSock item.slot).mode = .multi) (failed : outcome (c.master item.slot) = .error) :
    sendItems outcome items (item :: rest) c = (-1, (clusterAbortExec
        (fun node => if node = c.master item.slot then .refused else .accepted)
        { c with multiLen := update c.multiLen item.slot (-1) }).2) := by
  rw [sendItems, if_pos here, clusterSendExec_error failed]
  rfl

theorem sendItems_ran {done : List (Item ρ)} (rest : List (Item ρ))
    (members : ∀ item ∈ done, item ∈ items)
    (ran : ∀ item ∈ done, outcome (c.master item.slot) ≠ .error) :
    ∃ (sock : Nat → RedisSock ρ) (multiLen : Nat → Int), sendItems outcome items (done ++ rest) c =
        sendItems outcome items rest { c with sock := sock, multiLen := multiLen } ∧
      (∀ node, sock node =
        if Queued c.master done node ∧ (c.sock node).mode = .multi then
          sentSock outcome items c node
        else c.sock node) ∧
      ∀ slot, multiLen slot =
        if firstSlot c.master done (c.master slot) = some slot ∧
            (c.slotSock slot).mode = .multi then
          execRecord outcome (c.master slot)
        else c.multiLen slot := by
  induction done generalizing c with
  | nil => exact ⟨c.sock, c.multiLen, rfl, fun node => by simp, fun slot => by simp [firstSlot]⟩
  | cons item done ih =>
    have later : ∀ item ∈ done, item ∈ items := fun item mem =>
      members item (.tail _ mem)
    have ranLater : ∀ item ∈ done, outcome (c.master item.slot) ≠ .error := fun item mem =>
      ran item (.tail _ mem)
    by_cases here : (c.slotSock item.slot).mode = .multi
    · obtain ⟨sock, multiLen, goesOn, socks, records⟩ := @ih
        { c with
          sock := update c.sock (c.master item.slot)
            (sentSock outcome items c (c.master item.slot))
          multiLen := update c.multiLen item.slot
            (execRecord outcome (c.master item.slot)) } later ranLater
      refine ⟨sock, multiLen, ?_, fun node => ?_, fun slot => ?_⟩
      · rw [List.cons_append, sendItems_multi (members _ (.head _)) here
          (ran _ (.head _)), goesOn]
      · by_cases same : c.master item.slot = node
        · subst same
          have isMulti : (c.sock (c.master item.slot)).mode = .multi := here
          simp [socks, sentSock, isMulti]
        · simp [socks, same, update_of_ne (Ne.symm same), sentSock]
      · by_cases same : c.master item.slot = c.master slot
        · have isMulti : (c.sock (c.master slot)).mode = .multi := same ▸ here
          rw [records, firstSlot_cons_self same]
          by_cases isSlot : item.slot = slot
          · subst isSlot
            simp [RedisCluster.slotSock, sentSock, isMulti]
          · simp [RedisCluster.slotSock, sentSock, same, isSlot,
              update_of_ne (Ne.symm isSlot)]
        · have isSlot : slot ≠ item.slot := fun isSlot => same (isSlot ▸ rfl)
          simp [records, firstSlot_cons_ne same, RedisCluster.slotSock,
            update_of_ne (Ne.symm same), update_of_ne isSlot]
    · obtain ⟨sock, multiLen, goesOn, socks, records⟩ := ih later ranLater
      refine ⟨sock, multiLen, ?_, fun node => ?_, fun slot => ?_⟩
      · rw [List.cons_append, sendItems, if_neg here, goesOn]
      · by_cases same : c.master item.slot = node
        · subst same
          have isAtomic : ¬ (c.sock (c.master item.slot)).mode = .multi := here
          simp [socks, isAtomic]
        · simp [socks, same]
      · by_cases same : c.master item.slot = c.master slot
        · have isAtomic : ¬ (c.sock (c.master slot)).mode = .multi := same ▸ here
          simp [records, RedisCluster.slotSock, isAtomic]
        · rw [records, firstSlot_cons_ne same]

end

def ownEntry (outcome : Nat → ExecReply) (master : Nat → Nat) (item : Item ρ) : Option ρ :=
  if outcome (master item.slot) = .array then some item.reply else none

theorem execUnread_cons_self {outcome : Nat → ExecReply} {master : Nat → Nat} {item : Item ρ}
    (rest : List (Item ρ)) (ran : outcome (master item.slot) = .array) :
    execUnread outcome master (item :: rest) (master item.slot) =
      .reply item.reply :: execUnread outcome master rest (master item.slot) := by
  rw [execUnread, execUnread, if_pos ran, if_pos ran, execReplies,
    List.filter_cons_of_pos (by simp), List.map_cons, execReplies]

theorem execUnread_cons_ne {outcome : Nat → ExecReply} {master : Nat → Nat} {item : Item ρ}
    (rest : List (Item ρ)) {node : Nat} (away : master item.slot ≠ node ∨ outcome node ≠ .array) :
    execUnread outcome master (item :: rest) node = execUnread outcome master rest node := by
  rcases away with away | none
  · rw [execUnread, execUnread, execReplies, List.filter_cons_of_neg (by simpa using away),
      execReplies]
  · rw [execUnread, execUnread, if_neg none, if_neg none]

theorem multiMbulkResp_spec {outcome : Nat → ExecReply} {items : List (Item ρ)} {c : RedisCluster ρ}
    (unread : ∀ node, (c.sock node).unread = execUnread outcome c.master items node)
    (records : ∀ item ∈ items, c.multiLen item.slot > -1 ↔ outcome (c.master item.slot) = .array) :
    ∃ sock : Nat → RedisSock ρ, multiMbulkResp items c =
        (some (items.map (ownEntry outcome c.master)), { c with sock := sock }) ∧
      ∀ node, (sock node).unread = [] := by
  induction items generalizing c with
  | nil => exact ⟨c.sock, rfl, fun node => (unread node).trans (by simp [execUnread, execReplies])⟩
  | cons item rest ih =>
    have later : ∀ item ∈ rest,
        c.multiLen item.slot > -1 ↔ outcome (c.master item.slot) = .array :=
      fun item mem => records item (.tail _ mem)
    by_cases ran : outcome (c.master item.slot) = .array
    · have waiting : (c.slotSock item.slot).unread = .reply item.reply ::
          execUnread outcome c.master rest (c.master item.slot) :=
        (unread _).trans (execUnread_cons_self rest ran)
      obtain ⟨sock, result, empty⟩ := @ih (c.setSock (c.master item.slot)
          { c.slotSock item.slot with
            unread := execUnread outcome c.master rest (c.master item.slot) })
        (fun node => by
          by_cases same : node = c.master item.slot
          · subst same
            exact congrArg RedisSock.unread (setSock_self _ _)
          · refine (congrArg RedisSock.unread (setSock_of_ne same _)).trans ?_
            rw [unread, execUnread_cons_ne rest (.inl (Ne.symm same))]
            rfl) later
      refine ⟨sock, ?_, empty⟩
      rw [multiMbulkResp, if_pos ((records item (.head _)).mpr ran), waiting]
      simp only [result, List.map_cons, ownEntry, if_pos ran]
      rfl
    · obtain ⟨sock, result, empty⟩ := ih
        (fun node => by
          rw [unread]
          refine execUnread_cons_ne rest ?_
          by_cases same : c.master item.slot = node
          · exact .inr (same ▸ ran)
          · exact .inl same) later
      refine ⟨sock, ?_, empty⟩
      rw [multiMbulkResp, if_neg (mt (records item (.head _)).mp ran), result]
      simp only [List.map_cons, ownEntry, if_neg ran]
      rfl

variable {transaction : Transaction ρ} {c : RedisCluster ρ}

structure Idle (c : RedisCluster ρ) : Prop where
  unread : ∀ node, (c.sock node).unread = []
  queue : c.multiHead = []
  table : ∀ slot, c.master slot ∈ c.nodes

/-- No `EXEC` is answered with an error, and the record of a slot that no `EXEC` is sent for
happens to be that of its node. -/
structure RecordsAgree (transaction : Transaction ρ) (c : RedisCluster ρ) : Prop where
  ran : ∀ item ∈ transaction.items, transaction.outcome (c.master item.slot) ≠ .error
  records : ∀ item ∈ transaction.items,
    firstSlot c.master transaction.items (c.master item.slot) ≠ some item.slot →
      (c.multiLen item.slot > -1 ↔ transaction.outcome (c.master item.slot) = .array)

/-- An `EXEC` is answered with an error while a later node is still in its transaction: the
`DISCARD` there is accepted and so all connections are closed, unless they are persistent. -/
structure ErrorBeforeOther (transaction : Transaction ρ) (c : RedisCluster ρ) : Prop where
  closing : c.persistent = false
  error : ∃ done item rest, transaction.items = done ++ item :: rest ∧
    (∀ item ∈ done, transaction.outcome (c.master item.slot) ≠ .error) ∧
    transaction.outcome (c.master item.slot) = .error ∧
    ∃ later ∈ rest, c.master later.slot ≠ c.master item.slot ∧
      ¬ Queued c.master done (c.master later.slot)

/-- `exec` returns an entry for each command, or reports failure, and leaves nothing unread. -/
structure Collected (transaction : Transaction ρ) (c : RedisCluster ρ)
    (result : Option (List (Option ρ))) (after : RedisCluster ρ) : Prop where
  entries : result = some (transaction.items.map (ownEntry transaction.outcome c.master)) ∨
    result = none
  unread : ∀ node, (after.sock node).unread = []

def Settled : List (Transaction ρ) → RedisCluster ρ → Prop
  | [], _ => True
  | transaction :: rest, c =>
    (RecordsAgree transaction c ∨ ErrorBeforeOther transaction c) ∧
      ∀ result after, transact transaction c = some (result, after) → Settled rest after

def CollectsEach : List (Transaction ρ) → RedisCluster ρ → Prop
  | [], _ => True
  | transaction :: rest, c => ∃ result after, transact transaction c = some (result, after) ∧
      Collected transaction c result after ∧ CollectsEach rest after

theorem execUnread_of_not_queued {outcome : Nat → ExecReply} {master : Nat → Nat}
    {items : List (Item ρ)} {node : Nat} (away : ¬ Queued master items node) :
    execUnread outcome master items node = [] := by
  have none : items.filter (master ·.slot = node) = [] :=
    List.filter_eq_nil_iff.mpr fun item mem isNode =>
      away ⟨item, mem, of_decide_eq_true isNode⟩
  rw [execUnread, execReplies, none, List.map_nil, ite_self]

@[simp] theorem clusterResetMulti_unread (c : RedisCluster ρ) (node : Nat) :
    ((clusterResetMulti c).sock node).unread = (c.sock node).unread := by
  simp only [clusterResetMulti]
  split <;> rfl

theorem RecordsAgree.collected (agree : RecordsAgree transaction c) (idle : Idle c) :
    ∃ result after, transact transaction c = some (result, after) ∧
      Collected transaction c result after ∧ Idle after := by
  obtain ⟨sock, queued, clean, multi⟩ :=
    @queueItems_spec _ transaction.items { c with mode := .multi } idle.unread
  obtain ⟨sockSent, multiLen, sent, socks, records⟩ :=
    @sendItems_ran _ transaction.outcome transaction.items
      { c with
        mode := .multi
        sock := sock
        multiHead := c.multiHead ++ transaction.items.map (·.slot) } transaction.items []
      (fun _ mem => mem) agree.ran
  rw [List.append_nil, sendItems] at sent
  obtain ⟨sockRead, result, empty⟩ := @multiMbulkResp_spec _ transaction.outcome
    transaction.items { c with
      mode := .multi
      sock := sockSent
      multiHead := c.multiHead ++ transaction.items.map (·.slot)
      multiLen := multiLen } (fun node => by
    refine (congrArg RedisSock.unread (socks node)).trans ?_
    by_cases isQueued : Queued c.master transaction.items node
    · rw [if_pos ⟨isQueued, multi node (.inl isQueued)⟩]
      exact congrArg (· ++ execUnread transaction.outcome c.master transaction.items node)
        (clean node)
    · rw [if_neg fun both => isQueued both.1]
      exact (clean node).trans (execUnread_of_not_queued isQueued).symm) (fun item mem => by
    refine Iff.trans (iff_of_eq (congrArg (· > -1) (records item.slot))) ?_
    have isMulti : (sock (c.master item.slot)).mode = .multi :=
      multi _ (.inl ⟨item, mem, rfl⟩)
    by_cases isFirst : firstSlot c.master transaction.items (c.master item.slot) = some item.slot
    · rw [if_pos ⟨isFirst, isMulti⟩]
      by_cases ran : transaction.outcome (c.master item.slot) = .array
      · simp [execRecord, ran]
      · simp [execRecord, ran]
    · rw [if_neg fun both => isFirst both.1]
      exact agree.records item mem isFirst)
  have unread : ∀ node, ((clusterResetMulti { c with
      mode := .multi
      sock := sockRead
      multiHead := c.multiHead ++ transaction.items.map (·.slot)
      multiLen := multiLen }).sock node).unread = [] := fun node =>
    (clusterResetMulti_unread _ node).trans (empty node)
  refine ⟨_, _, ?_, ⟨.inl rfl, unread⟩, ⟨unread, rfl, idle.table⟩⟩
  rw [transact, queued, Option.map_some, exec, if_neg (by simp), sent]
  simp only [result]
  rfl

theorem ErrorBeforeOther.collected (failed : ErrorBeforeOther transaction c) (idle : Idle c) :
    ∃ result after, transact transaction c = some (result, after) ∧
      Collected transaction c result after ∧ Idle after := by
  obtain ⟨done, item, rest, split, ran, isError, later, mem, other, waits⟩ := failed.error
  obtain ⟨sock, queued, clean, multi⟩ :=
    @queueItems_spec _ transaction.items { c with mode := .multi } idle.unread
  have members : ∀ queued ∈ done ++ item :: rest, queued ∈ transaction.items :=
    fun queued mem => split ▸ mem
  obtain ⟨sockSent, multiLen, sent, socks, -⟩ :=
    @sendItems_ran _ transaction.outcome transaction.items
      { c with
        mode := .multi
        sock := sock
        multiHead := c.multiHead ++ transaction.items.map (·.slot) } done (item :: rest)
      (fun queued mem => members queued (List.mem_append_left _ mem)) ran
  have notSent : ∀ {node}, ¬ Queued c.master done node → sockSent node = sock node :=
    fun away => (socks _).trans (if_neg fun both => away both.1)
  have itemWaits : ¬ Queued c.master done (c.master item.slot) := by
    rintro ⟨same, mem, isNode⟩
    exact ran same mem (isNode ▸ isError)
  have here : (sockSent (c.master item.slot)).mode = .multi := by
    rw [notSent itemWaits]
    exact multi _ (.inl ⟨item, members item (by simp), rfl⟩)
  have laterMember : later ∈ transaction.items := members later (by simp [mem])
  obtain ⟨sockAborted, aborted, kept⟩ := @abortItems_accepted _
    (fun node => if node = c.master item.slot then .refused else .accepted)
    { c with
      mode := .multi
      sock := sockSent
      multiHead := c.multiHead ++ transaction.items.map (·.slot)
      multiLen := update multiLen item.slot (-1) }
    (c.multiHead ++ transaction.items.map (·.slot)) (c.master later.slot)
    ⟨⟨later.slot, List.mem_append_right _ (List.mem_map_of_mem laterMember), rfl⟩, by
      refine (congrArg RedisSock.mode (notSent waits)).trans ?_
      exact multi _ (.inl ⟨later, laterMember, rfl⟩)⟩ (if_neg other)
  have unread : ∀ node, ((clusterResetMulti (clusterDisconnect { c with
      mode := .multi
      sock := sockAborted
      multiHead := c.multiHead ++ transaction.items.map (·.slot)
      multiLen := update multiLen item.slot (-1) } false)).sock node).unread = [] := by
    intro node
    rw [clusterResetMulti_unread]
    by_cases inTable : node ∈ c.nodes
    · simp [clusterDisconnect, inTable, redisSockDisconnect, failed.closing]
    · have away : ∀ slot, c.master slot ≠ node := fun slot isNode =>
        inTable (isNode ▸ idle.table slot)
      simp only [clusterDisconnect, if_neg inTable]
      rw [kept node fun slot _ => away slot]
      refine (congrArg RedisSock.unread (notSent ?_)).trans (clean node)
      rintro ⟨queued, -, isNode⟩
      exact away _ isNode
  refine ⟨_, _, ?_, ⟨.inr rfl, unread⟩, ⟨unread, rfl, idle.table⟩⟩
  rw [transact, queued, Option.map_some, exec, if_neg (by simp)]
  have sent := (sent.trans (sendItems_error here isError)).trans
    (congrArg (fun result => ((-1 : Int), result.2)) aborted)
  rw [← split] at sent
  rw [sent]
  rfl

/-- **In a run of transactions each of which meets one of the conditions, the replies of each are
collected, and each to its own command.** -/
theorem settled_collectsEach (transactions : List (Transaction ρ)) (c : RedisCluster ρ)
    (idle : Idle c) (settled : Settled transactions c) : CollectsEach transactions c := by
  induction transactions generalizing c with
  | nil => trivial
  | cons transaction rest ih =>
    obtain ⟨here, later⟩ := settled
    obtain ⟨result, after, step, collected, idleAfter⟩ :=
      here.elim (·.collected idle) (·.collected idle)
    exact ⟨result, after, step, collected, ih after idleAfter (later result after step)⟩

def twoNodes : RedisCluster Nat where
  master := fun slot => if slot < 8192 then 7000 else 7001
  nodes := [7000, 7001]
  sock := fun _ => { mode := .atomic, watching := false, connected := true, unread := [] }
  mode := .atomic
  persistent := false
  multiLen := fun _ => 0
  multiHead := []

theorem idle_twoNodes : Idle twoNodes where
  unread := fun _ => rfl
  queue := rfl
  table := fun slot => by
    simp only [twoNodes]
    split <;> simp

theorem twoNodes_collectsEach : CollectsEach [⟨[⟨0, 10⟩, ⟨9000, 20⟩, ⟨0, 30⟩], fun _ => .array⟩,
      ⟨[⟨9000, 40⟩, ⟨0, 50⟩], fun node => if node = 7001 then .nil else .array⟩] twoNodes := by
  refine settled_collectsEach _ _ idle_twoNodes
    ⟨.inl ⟨by decide, by decide⟩, fun result after step => ?_⟩
  obtain ⟨rfl, rfl⟩ := Prod.mk.inj (Option.some.inj step.symm)
  exact ⟨.inl ⟨by decide, by decide⟩, fun _ _ _ => trivial⟩

/-- What the first transaction has recorded for slot 1 hides its reply in the second. -/
theorem staleRecord : ¬ ∀ (transactions : List (Transaction Nat)) (c : RedisCluster Nat),
    Idle c → CollectsEach transactions c := by
  intro all
  obtain ⟨_, _, step, -, _, _, nextStep, collected, -⟩ := all
    [⟨[⟨1, 10⟩], fun _ => .nil⟩, ⟨[⟨0, 20⟩, ⟨1, 30⟩], fun _ => .array⟩] twoNodes idle_twoNodes
  obtain ⟨-, rfl⟩ := Prod.mk.inj (Option.some.inj step.symm)
  obtain ⟨-, rfl⟩ := Prod.mk.inj (Option.some.inj nextStep.symm)
  exact absurd (collected.unread 7000) (by decide)

end PhpExts.Redis.Cluster
