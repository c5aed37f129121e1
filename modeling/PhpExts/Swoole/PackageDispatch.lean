import Mathlib

/-!
# Handing packages over to the workers

`swReactorThread_dispatch` cuts a package into fragments. Each of them is sent to a worker through
a pipe, by way of a buffer when the pipe is full, and the worker collects the fragments it reads in
one buffer for the whole reactor thread until it has the last one. `swFactoryProcess_dispatch`,
`swReactorThread_onPipeWrite` and `swWorker_onTask` discard a fragment on their own when its
connection has been closed by the server or its session has ended.

So the fate of a fragment is not that of its package. If no package is discarded in part, the
worker never has more in its buffer than the beginning of one package, and what it passes to
`onReceive` is one whole package (`whole_of_allowed`). Otherwise what has been collected of a
package stays in the buffer and is the beginning of what is received next, from whatever connection
(`not_whole`).
-/

namespace PhpExts.Swoole.PackageDispatch

open Function (update update_of_ne update_self)
open List (append_assoc mem_append_left mem_append_right mem_singleton)

/-- What the functions use of the configuration: `SW_BUFFER_SIZE`, and two fields of `swServer`. -/
structure Config where
  bufferSize : Nat
  positive : 0 < bufferSize
  disableNotify : Bool
  discardTimeoutRequest : Bool

/-- A session: its connection is there, or has been closed by the server, or the session has
ended. -/
inductive Status where
  | active
  | closed
  | ended
  deriving DecidableEq

/-- The package of a call of `swReactorThread_dispatch`; the calls are numbered. -/
structure Package where
  id : Nat
  session : Nat
  data : List UInt8
  deriving DecidableEq

inductive EventType where
  | packageStart
  | packageEnd
  deriving DecidableEq

/-- `swEventData`. The package and the offset of the fragment are not sent; no function looks at
them. -/
structure EventData where
  fd : Nat
  type : EventType
  data : List UInt8
  package : Package
  offset : Nat
  deriving DecidableEq

/-- What there is for a worker: the buffer of its pipe, the pipe, and what the worker has collected,
as bytes and as fragments. -/
structure Worker where
  inBuffer : List EventData
  pipe : List EventData
  str : List UInt8
  parts : List EventData

/-- A call of `onReceive`: the session and the contents of the buffer. -/
structure Receive where
  fd : Nat
  data : List UInt8
  parts : List EventData
  deriving DecidableEq

/-- The reactor thread with its pipes, and the workers. `dispatching` is the package
`swReactorThread_dispatch` is about, with how much of it has been cut off, and `target` is
`SwooleTG.factory_target_worker`. The packages dispatched so far, the numbers of those that have had
a fragment collected, and of those that have had one discarded, are the history. -/
structure Server where
  status : Nat → Status
  dispatching : Option (Package × Nat)
  target : Option Nat
  workers : Nat → Worker
  packages : List Package
  received : List Receive
  kept : List Nat
  dropped : List Nat

def Server.start : Server :=
  ⟨fun _ => .active, none, none, fun _ => ⟨[], [], [], []⟩, [], [], [], []⟩

/-- How a `write` to a pipe ends: the message is in the pipe, or there is no room, or it fails. -/
inductive Written where
  | sent
  | again
  | failed
  deriving DecidableEq

section

variable (config : Config)

/-- The task of a turn of the loop of `swReactorThread_dispatch`. -/
def cut (package : Package) (offset : Nat) : EventData where
  fd := package.session
  type := if config.bufferSize < package.data.length - offset then .packageStart else .packageEnd
  data := (package.data.drop offset).take config.bufferSize
  package := package
  offset := offset

namespace Server

def setWorker (server : Server) (w : Nat) (worker : Worker) : Server :=
  { server with workers := update server.workers w worker }

def drop (server : Server) (id : Nat) : Server :=
  { server with dropped := id :: server.dropped }

/-- `swReactorThread_dispatch` is called. -/
def dispatch (server : Server) (session : Nat) (data : List UInt8) : Server :=
  match server.dispatching with
  | some _ => server
  | none =>
    let package : Package := ⟨server.packages.length, session, data⟩
    { server with
      packages := server.packages ++ [package]
      dispatching := if data.length = 0 then none else some (package, 0)
      target := none }

def advance (server : Server) (package : Package) (offset : Nat) : Server :=
  if offset + config.bufferSize < package.data.length then
    { server with dispatching := some (package, offset + config.bufferSize) }
  else { server with dispatching := none, target := none }

/-- `break`. -/
def leave (server : Server) : Server := { server with dispatching := none, target := none }

/-- `swReactorThread_send2worker`; none for an error. -/
def send2worker (server : Server) (w : Nat) (task : EventData) (written : Written) :
    Option Server :=
  let worker := server.workers w
  if worker.inBuffer = [] then
    match written with
    | .sent => some (server.setWorker w { worker with pipe := worker.pipe ++ [task] })
    | .again => some (server.setWorker w { worker with inBuffer := [task] })
    | .failed => none
  else some (server.setWorker w { worker with inBuffer := worker.inBuffer ++ [task] })

/-- `swServer_worker_schedule` is asked while no worker is the target; it can refuse. -/
def schedule (server : Server) (scheduled : Option Nat) : Server :=
  if server.dispatching = none ∨ server.target ≠ none then server
  else { server with target := scheduled }

/-- `swFactoryProcess_dispatch` with the target, and the rest of the turn of the loop. -/
def sendFragment (server : Server) (written : Written) : Server :=
  match server.dispatching with
  | none => server
  | some (package, offset) =>
    match server.target with
    | none => (server.drop package.id).advance config package offset
    | some w =>
      match server.status package.session with
      | .ended => (server.drop package.id).leave
      | .closed => (server.drop package.id).advance config package offset
      | .active =>
        match server.send2worker w (cut config package offset) written with
        | none => (server.drop package.id).leave
        | some server => server.advance config package offset

/-- A turn of the loop of `swReactorThread_onPipeWrite`. -/
def pipeWrite (server : Server) (w : Nat) (written : Written) : Server :=
  let worker := server.workers w
  match worker.inBuffer with
  | [] => server
  | task :: rest =>
    if server.status task.fd ≠ .active then
      (server.setWorker w { worker with inBuffer := rest }).drop task.package.id
    else if written = .sent then
      server.setWorker w { worker with inBuffer := rest, pipe := worker.pipe ++ [task] }
    else server

def discardData (server : Server) (fd : Nat) : Bool :=
  match server.status fd with
  | .ended => !(config.disableNotify && !config.discardTimeoutRequest)
  | .closed => true
  | .active => false

/-- `swWorker_onTask` for the next message in the pipe. -/
def onTask (server : Server) (w : Nat) : Server :=
  let worker := server.workers w
  match worker.pipe with
  | [] => server
  | task :: rest =>
    if server.discardData config task.fd then
      (server.setWorker w { worker with pipe := rest }).drop task.package.id
    else
      let str := worker.str ++ task.data
      let parts := worker.parts ++ [task]
      let server := { server with kept := task.package.id :: server.kept }
      if task.type = .packageEnd then
        { server.setWorker w { worker with pipe := rest, str := [], parts := [] } with
          received := server.received ++ [⟨task.fd, str, parts⟩] }
      else server.setWorker w { worker with pipe := rest, str := str, parts := parts }

def close (server : Server) (session : Nat) : Server :=
  if server.status session = .active then
    { server with status := update server.status session .closed }
  else server

def finish (server : Server) (session : Nat) : Server :=
  { server with status := update server.status session .ended }

end Server

/-- What can happen next. A call of `swReactorThread_dispatch` is followed by the turns of its
loop, between which the other processes run. -/
inductive Event where
  | dispatch (session : Nat) (data : List UInt8)
  | fragment (scheduled : Option Nat) (written : Written)
  | pipeWrite (w : Nat) (written : Written)
  | task (w : Nat)
  | close (session : Nat)
  | finish (session : Nat)

def step (server : Server) : Event → Server
  | .dispatch session data => server.dispatch session data
  | .fragment scheduled written => (server.schedule scheduled).sendFragment config written
  | .pipeWrite w written => server.pipeWrite w written
  | .task w => server.onTask config w
  | .close session => server.close session
  | .finish session => server.finish session

def run (server : Server) (events : List Event) : Server := events.foldl (step config) server

/-! ## The property and the condition -/

def pieces (package : Package) (count : Nat) : List EventData :=
  (List.range count).map fun k => cut config package (k * config.bufferSize)

/-- What has been received are the bytes of one package of the session, and a worker has collected
the first fragments of one package. -/
def Whole (server : Server) : Prop :=
  (∀ receive ∈ server.received, ∃ package ∈ server.packages, package.session = receive.fd ∧
    receive.data = package.data ∧ ∃ count, receive.parts = pieces config package count) ∧
  ∀ w, (server.workers w).str = [] ∨ ∃ package ∈ server.packages, ∃ count,
    (server.workers w).parts = pieces config package count ∧
    (server.workers w).str = (pieces config package count).flatMap EventData.data

/-- The next fragment of the package in the loop is not sent. -/
def lost (server : Server) (package : Package) (written : Written) : Bool :=
  match server.target with
  | none => true
  | some w => decide (server.status package.session ≠ .active ∨
      (server.workers w).inBuffer = [] ∧ written = .failed)

/-- A fragment is discarded only if none of its package has been collected, and collected only if
none of its package has been discarded. -/
def allowed (server : Server) : Event → Bool
  | .fragment scheduled written =>
    match server.dispatching with
    | none => true
    | some (package, _) =>
      !lost (server.schedule scheduled) package written || decide (package.id ∉ server.kept)
  | .pipeWrite w _ =>
    match (server.workers w).inBuffer with
    | [] => true
    | task :: _ =>
      decide (server.status task.fd = .active) || decide (task.package.id ∉ server.kept)
  | .task w =>
    match (server.workers w).pipe with
    | [] => true
    | task :: _ =>
      if server.discardData config task.fd then decide (task.package.id ∉ server.kept)
      else decide (task.package.id ∉ server.dropped)
  | _ => true

def allAllowed : Server → List Event → Bool
  | _, [] => true
  | server, event :: events =>
    allowed config server event && allAllowed (step config server event) events

end

/-! ## Fragments in their order -/

section

variable (config : Config)

/-- The fragment behind a fragment of a package. -/
def next (task : EventData) : EventData :=
  cut config task.package (task.offset + config.bufferSize)

/-- Two neighbours in a line of fragments, or the end of the line: unless its package is in `d`, a
fragment has the next one behind it, or is the last one, and the one before it in front. -/
structure Link (d : List Nat) (front back : Option EventData) : Prop where
  ahead : ∀ task, front = some task → task.package.id ∉ d → task.type ≠ .packageEnd →
    back = some (next config task)
  behind : ∀ task, back = some task → task.package.id ∉ d → task.offset ≠ 0 →
    ∃ before, front = some before ∧ before.type ≠ .packageEnd ∧ next config before = task

def Line (d : List Nat) : Option EventData → List EventData → Prop
  | front, [] => Link config d front none
  | front, task :: tasks => Link config d front (some task) ∧ Line d (some task) tasks

variable {config : Config} {d : List Nat} {front back : Option EventData} {task : EventData}
  {first second tasks : List EventData}

theorem Link.mono {d' : List Nat} (link : Link config d front back) (more : ∀ id ∈ d, id ∈ d') :
    Link config d' front back where
  ahead task is_front other := link.ahead task is_front fun mem => other (more _ mem)
  behind task is_back other := link.behind task is_back fun mem => other (more _ mem)

theorem Link.skip (link : Link config d front (some task)) (link' : Link config d (some task) back)
    (dropped : task.package.id ∈ d) : Link config d front back where
  ahead before is_front other more := by
    have same := link.ahead before is_front other more
    rw [Option.some.injEq] at same
    rw [same] at dropped
    exact absurd dropped other
  behind after is_back other more := by
    obtain ⟨before, is_front, -, same⟩ := link'.behind after is_back other more
    rw [Option.some.injEq] at is_front
    rw [← same, ← is_front] at other
    exact absurd dropped other

theorem Line.mono {d' : List Nat} (line : Line config d front tasks)
    (more : ∀ id ∈ d, id ∈ d') : Line config d' front tasks := by
  induction tasks generalizing front with
  | nil => exact Link.mono line more
  | cons task tasks ih => exact ⟨line.1.mono more, ih line.2⟩

theorem Line.skip (link : Link config d front (some task)) (line : Line config d (some task) tasks)
    (dropped : task.package.id ∈ d) : Line config d front tasks := by
  cases tasks with
  | nil => exact link.skip line dropped
  | cons _ _ => exact ⟨link.skip line.1 dropped, line.2⟩

theorem Line.remove (line : Line config d front (first ++ task :: second))
    (dropped : task.package.id ∈ d) : Line config d front (first ++ second) := by
  induction first generalizing front with
  | nil => exact Line.skip line.1 line.2 dropped
  | cons task first ih => exact ⟨line.1, ih line.2⟩

/-- Fragments of discarded packages have been taken out of a line. -/
def Less (d : List Nat) (tasks tasks' : List EventData) : Prop :=
  ∃ first removed second, tasks = first ++ (removed ++ second) ∧ tasks' = first ++ second ∧
    ∀ task ∈ removed, task.package.id ∈ d

theorem Less.refl (d : List Nat) (tasks : List EventData) : Less d tasks tasks :=
  ⟨tasks, [], [], by simp, by simp, by simp⟩

theorem Line.less {tasks' : List EventData} (line : Line config d front tasks)
    (less : Less d tasks tasks') : Line config d front tasks' := by
  obtain ⟨first, removed, second, rfl, rfl, dropped⟩ := less
  induction removed with
  | nil => exact line
  | cons task removed ih =>
    exact ih (line.remove (dropped task (.head _)))
      fun other mem => dropped other (.tail _ mem)

theorem Less.mem {tasks' : List EventData} (less : Less d tasks tasks') (mem : task ∈ tasks') :
    task ∈ tasks := by
  obtain ⟨first, removed, second, rfl, rfl, -⟩ := less
  rcases List.mem_append.1 mem with mem | mem
  · exact mem_append_left _ mem
  · exact mem_append_right _ (mem_append_right _ mem)

theorem Line.append (line : Line config d front first) (line' : Line config d none second) :
    Line config d front (first ++ second) := by
  induction first generalizing front with
  | nil =>
    cases second with
    | nil => exact line
    | cons task second =>
      refine ⟨⟨fun before is_front other more => ?_, fun after is_back other more => ?_⟩,
        line'.2⟩
      · exact absurd (Link.ahead line before is_front other more) (by simp)
      · obtain ⟨before, absurd_front, -⟩ := line'.1.behind after is_back other more
        cases absurd_front
  | cons task first ih => exact ⟨line.1, ih line.2⟩

theorem Line.behind (line : Line config d front (first ++ task :: second)) :
    Line config d (some task) second := by
  induction first generalizing front with
  | nil => exact line.2
  | cons _ first ih => exact ih line.2

theorem Line.anew (line : Line config d (some task) tasks) (last : task.type = .packageEnd) :
    Line config d none tasks := by
  have link : ∀ back, Link config d (some task) back → Link config d none back := by
    intro back link
    refine ⟨(by intro before is_front; cases is_front), ?_⟩
    intro after is_back other more
    obtain ⟨before, is_front, not_last, -⟩ := link.behind after is_back other more
    rw [Option.some.injEq] at is_front
    rw [is_front] at last
    exact absurd last not_last
  cases tasks with
  | nil => exact link _ line
  | cons _ _ => exact ⟨link _ line.1, line.2⟩

/-! ### Pieces -/

theorem pieces_succ (package : Package) (count : Nat) : pieces config package (count + 1) =
    pieces config package count ++ [cut config package (count * config.bufferSize)] := by
  rw [pieces, List.range_succ, List.map_append]
  rfl

theorem flatMap_pieces (package : Package) (count : Nat) :
    (pieces config package count).flatMap EventData.data =
      package.data.take (count * config.bufferSize) := by
  induction count with
  | zero => rw [Nat.zero_mul, List.take_zero]; rfl
  | succ count ih =>
    rw [pieces_succ, List.flatMap_append, ih, Nat.succ_mul, List.take_add, List.flatMap_singleton]
    rfl

theorem Line.pieces (line : Line config d none (first ++ task :: second))
    (genuine : ∀ other ∈ first ++ [task], other = cut config other.package other.offset)
    (more : ∀ other ∈ first, other.type ≠ .packageEnd)
    (kept : ∀ other ∈ first ++ [task], other.package.id ∉ d) :
    first ++ [task] = PackageDispatch.pieces config task.package (first.length + 1) := by
  induction first using List.reverseRecOn generalizing task second with
  | nil =>
    have zero : task.offset = 0 := by
      by_contra other
      obtain ⟨before, absurd_front, -⟩ := line.1.behind task rfl (kept task (by simp)) other
      cases absurd_front
    have shape := genuine task (by simp)
    rw [zero] at shape
    rw [List.nil_append, shape]
    simp [PackageDispatch.pieces, cut]
  | append_singleton first before ih =>
    have line' : Line config d none (first ++ before :: (task :: second)) := by
      rw [append_assoc] at line
      exact line
    have earlier := ih line'
      (fun other mem => genuine other (mem_append_left _ mem))
      (fun other mem => more other (mem_append_left _ mem))
      (fun other mem => kept other (mem_append_left _ mem))
    have link : Link config d (some before) (some task) := line'.behind.1
    have after := link.ahead before rfl (kept before (by simp)) (more before (by simp))
    rw [Option.some.injEq] at after
    have at_end : before = cut config before.package (first.length * config.bufferSize) := by
      rw [pieces_succ] at earlier
      exact List.singleton_inj.1 (List.append_inj' earlier rfl).2
    have offset : before.offset = first.length * config.bufferSize := by
      rw [at_end]
      rfl
    have count : (first ++ [before]).length = first.length + 1 := by simp
    rw [count, pieces_succ _ (first.length + 1), earlier, after, next, offset, Nat.succ_mul]
    rfl

/-! ### What is left of a package -/

/-- The fragments of a package from an offset on. -/
def cuts (config : Config) (package : Package) (offset : Nat) : List EventData :=
  if offset < package.data.length then
    cut config package offset :: cuts config package (offset + config.bufferSize)
  else []
termination_by package.data.length - offset
decreasing_by
  have := config.positive
  omega

variable {package : Package} {offset : Nat}

theorem cuts_of_lt (more : offset < package.data.length) : cuts config package offset =
    cut config package offset :: cuts config package (offset + config.bufferSize) := by
  rw [cuts, if_pos more]

theorem cuts_of_le (done : package.data.length ≤ offset) : cuts config package offset = [] := by
  rw [cuts, if_neg (Nat.not_lt.2 done)]

theorem mem_cuts (mem : task ∈ cuts config package offset) :
    task = cut config task.package task.offset ∧ task.package = package := by
  induction offset using cuts.induct config package with
  | case1 offset more ih =>
    rw [cuts_of_lt more, List.mem_cons] at mem
    rcases mem with rfl | mem
    · exact ⟨rfl, rfl⟩
    · exact ih mem
  | case2 offset done =>
    rw [cuts_of_le (Nat.not_lt.1 done)] at mem
    cases mem

theorem line_cuts (more : offset < package.data.length)
    (link : Link config d front (some (cut config package offset))) :
    Line config d front (cuts config package offset) := by
  induction offset using cuts.induct config package generalizing front with
  | case2 offset done => exact absurd more done
  | case1 offset more ih =>
    rw [cuts_of_lt more]
    refine ⟨link, ?_⟩
    by_cases rest : offset + config.bufferSize < package.data.length
    · apply ih rest
      have not_last : (cut config package offset).type ≠ .packageEnd := by
        intro same
        rw [cut, if_pos (by omega)] at same
        cases same
      refine ⟨?_, ?_⟩
      · intro task is_front _ _
        rw [Option.some.injEq] at is_front
        rw [← is_front]
        rfl
      · intro task is_back _ _
        rw [Option.some.injEq] at is_back
        exact ⟨_, rfl, not_last, is_back⟩
    · rw [cuts_of_le (Nat.not_lt.1 rest)]
      refine ⟨?_, ?_⟩
      · intro task is_front _ not_last
        rw [Option.some.injEq] at is_front
        rw [← is_front, cut, if_neg (by omega)] at not_last
        exact absurd rfl not_last
      · intro task is_back
        cases is_back

end

/-! ## What holds in every run -/

variable (config : Config)

/-- The fragments the loop has still to send to a worker. -/
def rest (server : Server) (w : Nat) : List EventData :=
  match server.dispatching, server.target with
  | some (package, offset), some target =>
    if target = w then cuts config package offset else []
  | _, _ => []

/-- The fragments for a worker in their order: what it has collected, what is in its pipe and in the
buffer of its pipe, and what the loop has still to send. -/
def line (server : Server) (w : Nat) : List EventData :=
  (server.workers w).parts ++ ((server.workers w).pipe ++
    ((server.workers w).inBuffer ++ rest config server w))

def Loop (server : Server) : Prop :=
  ∀ package offset, server.dispatching = some (package, offset) →
    package ∈ server.packages ∧ offset < package.data.length ∧
      (server.target = none → offset = 0 ∨ package.id ∈ server.dropped)

structure Inv (server : Server) : Prop where
  parts : ∀ w, ∀ task ∈ (server.workers w).parts,
    task.type ≠ .packageEnd ∧ task.package.id ∈ server.kept
  str : ∀ w, (server.workers w).str = (server.workers w).parts.flatMap EventData.data
  line : ∀ w, Line config server.dropped none (line config server w)
  genuine : ∀ w, ∀ task ∈ PackageDispatch.line config server w,
    task = cut config task.package task.offset ∧ task.package ∈ server.packages
  disjoint : ∀ id ∈ server.kept, id ∉ server.dropped
  loop : Loop server
  received : ∀ receive ∈ server.received, ∃ package ∈ server.packages,
    package.session = receive.fd ∧ receive.data = package.data ∧
      ∃ count, receive.parts = pieces config package count

structure Queued (server server' : Server) : Prop where
  packages : server'.packages = server.packages
  kept : server'.kept = server.kept
  received : server'.received = server.received
  parts : ∀ w, (server'.workers w).parts = (server.workers w).parts
  str : ∀ w, (server'.workers w).str = (server.workers w).str
  dropped : ∀ id ∈ server.dropped, id ∈ server'.dropped
  fresh : ∀ id ∈ server.kept, id ∉ server'.dropped
  less : ∀ w, Less server'.dropped (line config server w) (line config server' w)
  loop : Loop server'

variable {config} {server server' : Server}

theorem Inv.queued (inv : Inv config server) (queued : Queued config server server') :
    Inv config server' where
  parts w task mem := by
    rw [queued.kept]
    rw [queued.parts w] at mem
    exact inv.parts w task mem
  str w := by rw [queued.str w, queued.parts w, inv.str w]
  line w := ((inv.line w).mono queued.dropped).less (queued.less w)
  genuine w task mem := by
    rw [queued.packages]
    exact inv.genuine w task ((queued.less w).mem mem)
  disjoint id mem := by
    rw [queued.kept] at mem
    exact queued.fresh id mem
  loop := queued.loop
  received receive mem := by
    rw [queued.received] at mem
    rw [queued.packages]
    exact inv.received receive mem

theorem Inv.whole (inv : Inv config server) : Whole config server := by
  refine ⟨inv.received, fun w => ?_⟩
  by_cases none : (server.workers w).parts = []
  · left
    rw [inv.str w, none]
    rfl
  · right
    obtain ⟨first, task, shape⟩ :=
      (List.eq_nil_or_concat (server.workers w).parts).resolve_left none
    have line := inv.line w
    have genuine := inv.genuine w
    rw [PackageDispatch.line, shape, List.concat_eq_append, append_assoc] at line genuine
    have collected : ∀ other ∈ first ++ [task], other ∈ (server.workers w).parts := by
      intro other mem
      rw [shape, List.concat_eq_append]
      exact mem
    have pieces := line.pieces
      (fun other mem => (genuine other (by
        rw [← append_assoc]
        exact mem_append_left _ mem)).1)
      (fun other mem => (inv.parts w other (collected other (mem_append_left _ mem))).1)
      (fun other mem => inv.disjoint _ (inv.parts w other (collected other mem)).2)
    refine ⟨task.package, (genuine task (by simp)).2, first.length + 1, ?_, ?_⟩
    · rw [shape, List.concat_eq_append, pieces]
    · rw [inv.str w, shape, List.concat_eq_append, pieces]

theorem inv_start (config : Config) : Inv config .start where
  parts _ _ mem := nomatch mem
  str _ := rfl
  line _ := ⟨(by intro task is_front; cases is_front), (by intro task is_back; cases is_back)⟩
  genuine _ _ mem := nomatch mem
  disjoint _ mem := nomatch mem
  loop _ _ absurd_loop := nomatch absurd_loop
  received _ mem := nomatch mem

/-! ### The loop -/

section

variable {package : Package} {offset : Nat} {w : Nat} {d : List Nat}

theorem rest_of_loop (loop : server.dispatching = some (package, offset))
    (target : server.target = some w) (w' : Nat) :
    rest config server w' = if w = w' then cuts config package offset else [] := by
  rw [rest, loop, target]

theorem rest_of_idle (idle : server.dispatching = none) (w : Nat) : rest config server w = [] := by
  rw [rest, idle]

theorem rest_of_refused (refused : server.target = none) (w : Nat) : rest config server w = [] := by
  rw [rest, refused]
  cases server.dispatching <;> rfl

theorem rest_advance (target : server.target = some w) (w' : Nat) :
    rest config (server.advance config package offset) w' =
      if w = w' then cuts config package (offset + config.bufferSize) else [] := by
  by_cases more : offset + config.bufferSize < package.data.length
  · have loop : ({ server with dispatching := some (package, offset + config.bufferSize) } :
        Server).dispatching = some (package, offset + config.bufferSize) := rfl
    rw [Server.advance, if_pos more]
    exact rest_of_loop loop target w'
  · have idle : ({ server with dispatching := none, target := none } : Server).dispatching = none :=
      rfl
    rw [Server.advance, if_neg more, cuts_of_le (Nat.not_lt.1 more), rest_of_idle idle, ite_self]

theorem advance_eq (config : Config) (server : Server) (package : Package) (offset : Nat) :
    ∃ dispatching target, server.advance config package offset =
      { server with dispatching := dispatching, target := target } := by
  rw [Server.advance]
  split_ifs
  · exact ⟨_, server.target, rfl⟩
  · exact ⟨none, none, rfl⟩

theorem loop_advance (known : package ∈ server.packages)
    (sent : server.target = none → package.id ∈ server.dropped) :
    Loop (server.advance config package offset) := by
  intro package' offset' looping
  by_cases more : offset + config.bufferSize < package.data.length
  · rw [Server.advance, if_pos more] at looping ⊢
    simp only [Option.some.injEq, Prod.mk.injEq] at looping
    obtain ⟨rfl, rfl⟩ := looping
    exact ⟨known, more, fun refused => .inr (sent refused)⟩
  · rw [Server.advance, if_neg more] at looping
    cases looping

theorem Less.append_left {tasks tasks' : List EventData} (less : Less d tasks tasks')
    (front : List EventData) : Less d (front ++ tasks) (front ++ tasks') := by
  obtain ⟨first, removed, second, rfl, rfl, dropped⟩ := less
  exact ⟨front ++ first, removed, second, by simp, by simp, dropped⟩

theorem Less.append_right {tasks tasks' : List EventData} (less : Less d tasks tasks')
    (back : List EventData) : Less d (tasks ++ back) (tasks' ++ back) := by
  obtain ⟨first, removed, second, rfl, rfl, dropped⟩ := less
  exact ⟨first, removed, second ++ back, by simp, by simp, dropped⟩

theorem less_line {server' : Server} (same : server'.workers = server.workers)
    (less : Less d (rest config server w) (rest config server' w)) :
    Less d (line config server w) (line config server' w) := by
  rw [line, line, same]
  exact ((less.append_left _).append_left _).append_left _

theorem fresh_drop (inv : Inv config server) {id : Nat} (fresh : id ∉ server.kept) :
    ∀ id' ∈ server.kept, id' ∉ (server.drop id).dropped := by
  intro id' mem
  rw [Server.drop, List.mem_cons, not_or]
  exact ⟨fun same => fresh (same ▸ mem), inv.disjoint id' mem⟩

theorem queued_drop_advance (inv : Inv config server)
    (loop : server.dispatching = some (package, offset)) (fresh : package.id ∉ server.kept) :
    Queued config server ((server.drop package.id).advance config package offset) := by
  obtain ⟨known, more, -⟩ := inv.loop package offset loop
  have is_dropped : package.id ∈ (server.drop package.id).dropped := .head _
  have looping : Loop ((server.drop package.id).advance config package offset) :=
    loop_advance known fun _ => is_dropped
  have less : ∀ w, Less (server.drop package.id).dropped (rest config server w)
      (rest config ((server.drop package.id).advance config package offset) w) := by
    intro w
    cases target : server.target with
    | none =>
      have refused : ((server.drop package.id).advance config package offset).target = none := by
        rw [Server.advance]
        split_ifs
        · exact target
        · rfl
      rw [rest_of_refused target, rest_of_refused refused]
      exact .refl _ _
    | some target' =>
      have target'' : (server.drop package.id).target = some target' := target
      rw [rest_of_loop loop target, rest_advance target'']
      by_cases same : target' = w
      · rw [if_pos same, if_pos same, cuts_of_lt more]
        refine ⟨[], [_], _, rfl, rfl, ?_⟩
        intro task mem
        rw [mem_singleton] at mem
        rw [mem]
        exact is_dropped
      · rw [if_neg same, if_neg same]
        exact .refl _ _
  obtain ⟨dispatching, target, shape⟩ :=
    advance_eq config (server.drop package.id) package offset
  rw [shape] at looping less ⊢
  exact ⟨rfl, rfl, rfl, fun _ => rfl, fun _ => rfl, fun _ => List.mem_cons_of_mem _,
    fresh_drop inv fresh, fun w => less_line rfl (less w), looping⟩

theorem queued_drop_leave (inv : Inv config server)
    (loop : server.dispatching = some (package, offset)) (fresh : package.id ∉ server.kept) :
    Queued config server (server.drop package.id).leave := by
  have less : ∀ w, Less (server.drop package.id).dropped (rest config server w)
      (rest config (server.drop package.id).leave w) := by
    intro w
    have idle : (server.drop package.id).leave.dispatching = none := rfl
    rw [rest_of_idle idle]
    refine ⟨[], rest config server w, [], by simp, rfl, ?_⟩
    intro task mem
    cases target : server.target with
    | none =>
      rw [rest_of_refused target] at mem
      cases mem
    | some target' =>
      rw [rest_of_loop loop target] at mem
      split_ifs at mem
      · rw [(mem_cuts mem).2]
        exact .head _
      · cases mem
  refine ⟨rfl, rfl, rfl, fun _ => rfl, fun _ => rfl, fun _ => List.mem_cons_of_mem _,
    fresh_drop inv fresh, fun w => less_line rfl (less w), ?_⟩
  intro package' offset' looping
  cases looping

theorem setWorker_keeps {α : Type} (field : Worker → α) {worker : Worker}
    (same : field worker = field (server.workers w)) (w' : Nat) :
    field ((server.setWorker w worker).workers w') = field (server.workers w') := by
  by_cases isWorker : w' = w
  · subst isWorker
    simpa only [Server.setWorker, update_self] using same
  · simp only [Server.setWorker, update_of_ne isWorker]

theorem queued_send (inv : Inv config server)
    (loop : server.dispatching = some (package, offset)) (target : server.target = some w)
    {worker : Worker} (parts : worker.parts = (server.workers w).parts)
    (str : worker.str = (server.workers w).str) (queue : worker.pipe ++ worker.inBuffer =
      (server.workers w).pipe ++ ((server.workers w).inBuffer ++ [cut config package offset])) :
    Queued config server ((server.setWorker w worker).advance config package offset) := by
  obtain ⟨known, more, -⟩ := inv.loop package offset loop
  have target' : (server.setWorker w worker).target = some w := target
  have looping : Loop ((server.setWorker w worker).advance config package offset) :=
    loop_advance known fun refused => absurd (target.symm.trans refused) (by simp)
  have less : ∀ w', line config server w' =
      line config ((server.setWorker w worker).advance config package offset) w' := by
    intro w'
    rw [line, line, rest_of_loop loop target, rest_advance target']
    obtain ⟨dispatching, target, shape⟩ :=
      advance_eq config (server.setWorker w worker) package offset
    rw [shape]
    by_cases same : w = w'
    · subst same
      rw [if_pos rfl, if_pos rfl, cuts_of_lt more]
      simp only [Server.setWorker, update_self]
      rw [parts, ← append_assoc worker.pipe, queue]
      simp
    · rw [if_neg same, if_neg same]
      simp only [Server.setWorker, update_of_ne (Ne.symm same)]
  obtain ⟨dispatching, target, shape⟩ :=
    advance_eq config (server.setWorker w worker) package offset
  rw [shape] at looping less ⊢
  refine ⟨rfl, rfl, rfl, ?_, ?_, fun _ mem => mem, inv.disjoint, ?_, looping⟩
  · exact setWorker_keeps Worker.parts parts
  · exact setWorker_keeps Worker.str str
  · intro w'
    rw [← less w']
    exact .refl _ _

theorem queued_worker (inv : Inv config server) {worker : Worker}
    (parts : worker.parts = (server.workers w).parts)
    (str : worker.str = (server.workers w).str) (dropped : ∀ id ∈ server.dropped, id ∈ d)
    (fresh : ∀ id ∈ server.kept, id ∉ d)
    (less : Less d ((server.workers w).pipe ++ (server.workers w).inBuffer)
      (worker.pipe ++ worker.inBuffer)) :
    Queued config server { server.setWorker w worker with dropped := d } := by
  refine ⟨rfl, rfl, rfl, ?_, ?_, dropped, fresh, ?_, ?_⟩
  · exact setWorker_keeps Worker.parts parts
  · exact setWorker_keeps Worker.str str
  · intro w'
    have same_rest : rest config { server.setWorker w worker with dropped := d } w' =
      rest config server w' := rfl
    rw [line, line, same_rest]
    by_cases same : w' = w
    · subst same
      simp only [Server.setWorker, update_self]
      rw [parts]
      apply Less.append_left
      rw [← append_assoc, ← append_assoc]
      exact less.append_right _
    · simp only [Server.setWorker, update_of_ne same]
      exact .refl _ _
  · intro package offset looping
    obtain ⟨known, more, sent⟩ := inv.loop package offset looping
    exact ⟨known, more, fun refused => (sent refused).imp_right (dropped _)⟩

end

/-! ### Steps -/

section

variable {w : Nat}

theorem dispatch_inv (inv : Inv config server) (session : Nat) (data : List UInt8) :
    Inv config (server.dispatch session data) := by
  cases looping : server.dispatching with
  | some _ =>
    rw [Server.dispatch, looping]
    exact inv
  | none =>
    have same : ∀ w, line config (server.dispatch session data) w = line config server w := by
      intro w
      rw [line, line, rest_of_idle looping, rest_of_refused]
      · rw [Server.dispatch, looping]
      · rw [Server.dispatch, looping]
    have more : ∀ package ∈ server.packages,
        package ∈ (server.dispatch session data).packages := by
      intro package mem
      rw [Server.dispatch, looping]
      exact mem_append_left _ mem
    have genuine : ∀ w, ∀ task ∈ line config (server.dispatch session data) w,
        task = cut config task.package task.offset ∧
          task.package ∈ (server.dispatch session data).packages := by
      intro w task mem
      rw [same w] at mem
      exact ⟨(inv.genuine w task mem).1, more _ (inv.genuine w task mem).2⟩
    have received : ∀ receive ∈ server.received,
        ∃ package ∈ (server.dispatch session data).packages, package.session = receive.fd ∧
          receive.data = package.data ∧
            ∃ count, receive.parts = pieces config package count := by
      intro receive mem
      obtain ⟨package, known, of_package⟩ := inv.received receive mem
      exact ⟨package, more package known, of_package⟩
    have line : ∀ w, Line config server.dropped none
        (PackageDispatch.line config (server.dispatch session data) w) := by
      intro w
      rw [same w]
      exact inv.line w
    have loop : Loop (server.dispatch session data) := by
      intro package offset next
      rw [Server.dispatch, looping] at next ⊢
      simp only at next ⊢
      split_ifs at next with empty
      simp only [Option.some.injEq, Prod.mk.injEq] at next
      obtain ⟨rfl, rfl⟩ := next
      exact ⟨by simp, Nat.pos_of_ne_zero empty, fun _ => .inl rfl⟩
    rw [Server.dispatch, looping] at line genuine received loop ⊢
    exact ⟨inv.parts, inv.str, line, genuine, inv.disjoint, loop, received⟩

theorem schedule_inv (inv : Inv config server) (scheduled : Option Nat) :
    Inv config (server.schedule scheduled) := by
  rw [Server.schedule]
  split_ifs with same
  · exact inv
  · rw [not_or, not_not] at same
    obtain ⟨⟨package, offset⟩, looping⟩ := Option.ne_none_iff_exists'.1 same.1
    obtain ⟨known, more, sent⟩ := inv.loop package offset looping
    cases scheduled with
    | none =>
      rw [show ({ server with target := none } : Server) = server by rw [← same.2]]
      exact inv
    | some target =>
      have is_target : ({ server with target := some target } : Server).target = some target :=
        rfl
      have rest_eq : ∀ w, rest config { server with target := some target } w =
          if target = w then cuts config package offset else [] :=
        rest_of_loop looping is_target
      have line_eq : ∀ w, line config { server with target := some target } w =
          line config server w ++ if target = w then cuts config package offset else [] := by
        intro w
        rw [line, line, rest_eq w, rest_of_refused same.2]
        simp
      refine ⟨inv.parts, inv.str, ?_, ?_, inv.disjoint, ?_, inv.received⟩
      · intro w
        rw [line_eq w]
        split_ifs
        · refine (inv.line w).append (line_cuts more ⟨?_, ?_⟩)
          · intro task is_front
            cases is_front
          · intro task is_back other started
            rw [Option.some.injEq] at is_back
            rw [← is_back] at other started
            exact ((sent same.2).elim started other).elim
        · rw [List.append_nil]
          exact inv.line w
      · intro w task mem
        rw [line_eq w, List.mem_append] at mem
        rcases mem with mem | mem
        · exact inv.genuine w task mem
        · split_ifs at mem
          · obtain ⟨genuine, of_package⟩ := mem_cuts mem
            rw [of_package] at genuine ⊢
            exact ⟨genuine, known⟩
          · cases mem
      · intro package offset looping
        obtain ⟨known, more, -⟩ := inv.loop package offset looping
        exact ⟨known, more, fun refused => nomatch refused⟩

theorem sendFragment_inv (inv : Inv config server) (written : Written)
    (fine : ∀ package offset, server.dispatching = some (package, offset) →
      lost server package written = true → package.id ∉ server.kept) :
    Inv config (server.sendFragment config written) := by
  cases looping : server.dispatching with
  | none =>
    rw [Server.sendFragment, looping]
    exact inv
  | some loop =>
    obtain ⟨package, offset⟩ := loop
    have fresh := fine package offset looping
    rw [Server.sendFragment, looping]
    simp only
    cases target : server.target with
    | none =>
      have refused : lost server package written = true := by rw [lost, target]
      exact inv.queued (queued_drop_advance inv looping (fresh refused))
    | some w =>
      have is_lost : lost server package written = true ↔
          server.status package.session ≠ .active ∨
            (server.workers w).inBuffer = [] ∧ written = .failed := by
        rw [lost, target]
        simp only [decide_eq_true_eq]
      simp only
      cases status : server.status package.session with
      | ended =>
        have gone := fresh (is_lost.2 (.inl (by rw [status]; decide)))
        exact inv.queued (queued_drop_leave inv looping gone)
      | closed =>
        have gone := fresh (is_lost.2 (.inl (by rw [status]; decide)))
        exact inv.queued (queued_drop_advance inv looping gone)
      | active =>
        simp only [Server.send2worker]
        by_cases empty : (server.workers w).inBuffer = []
        · simp only [if_pos empty]
          cases written with
          | failed =>
            have gone := fresh (is_lost.2 (.inr ⟨empty, rfl⟩))
            exact inv.queued (queued_drop_leave inv looping gone)
          | sent =>
            refine inv.queued (queued_send inv looping target ?_ ?_ ?_)
            · rfl
            · rfl
            · simp [empty]
          | again =>
            refine inv.queued (queued_send inv looping target ?_ ?_ ?_)
            · rfl
            · rfl
            · simp [empty]
        · simp only [if_neg empty]
          refine inv.queued (queued_send inv looping target ?_ ?_ ?_)
          · rfl
          · rfl
          · rfl

theorem pipeWrite_inv (inv : Inv config server) (written : Written)
    (fine : ∀ task rest, (server.workers w).inBuffer = task :: rest →
      server.status task.fd ≠ .active → task.package.id ∉ server.kept) :
    Inv config (server.pipeWrite w written) := by
  rw [Server.pipeWrite]
  cases queue : (server.workers w).inBuffer with
  | nil => exact inv
  | cons task rest =>
    simp only
    split_ifs with discarded sent
    · have fresh := fine task rest queue discarded
      refine inv.queued (queued_worker inv ?_ ?_ (fun _ => List.mem_cons_of_mem _)
        (fresh_drop inv fresh) ?_)
      · rfl
      · rfl
      · rw [queue]
        refine ⟨(server.workers w).pipe, [task], rest, by simp, rfl, ?_⟩
        intro other mem
        rw [mem_singleton] at mem
        rw [mem]
        exact .head _
    · refine inv.queued (queued_worker inv ?_ ?_ (fun _ mem => mem) inv.disjoint ?_)
      · rfl
      · rfl
      · rw [queue]
        simp only [append_assoc, List.singleton_append]
        exact .refl _ _
    · exact inv

variable {tasks : List EventData}

theorem collected_eq (inv : Inv config server) {task : EventData}
    (queue : (server.workers w).pipe = task :: tasks) (fresh : task.package.id ∉ server.dropped) :
    (server.workers w).parts ++ [task] =
      pieces config task.package ((server.workers w).parts.length + 1) := by
  have line := inv.line w
  have genuine := inv.genuine w
  rw [PackageDispatch.line, queue, List.cons_append] at line genuine
  refine line.pieces ?_ ?_ ?_
  · intro other mem
    refine (genuine other ?_).1
    rcases List.mem_append.1 mem with mem | mem
    · exact mem_append_left _ mem
    · rw [mem_singleton] at mem
      rw [mem]
      exact mem_append_right _ (.head _)
  · intro other mem
    exact (inv.parts w other mem).1
  · intro other mem
    rcases List.mem_append.1 mem with mem | mem
    · exact inv.disjoint _ (inv.parts w other mem).2
    · rw [mem_singleton] at mem
      rw [mem]
      exact fresh

theorem collected_data (inv : Inv config server) {task : EventData}
    (queue : (server.workers w).pipe = task :: tasks)
    (fresh : task.package.id ∉ server.dropped) (last : task.type = .packageEnd) :
    (server.workers w).str ++ task.data = task.package.data := by
  have collected := collected_eq inv queue fresh
  have at_end : task = cut config task.package
      ((server.workers w).parts.length * config.bufferSize) := by
    rw [pieces_succ] at collected
    exact List.singleton_inj.1 (List.append_inj' collected rfl).2
  have enough : task.package.data.length ≤
      ((server.workers w).parts.length + 1) * config.bufferSize := by
    rw [at_end, cut] at last
    simp only at last
    split_ifs at last with more
    rw [Nat.succ_mul]
    omega
  have bytes := congrArg (List.flatMap EventData.data) collected
  rw [flatMap_pieces, List.take_of_length_le enough, List.flatMap_append, ← inv.str w,
    List.flatMap_singleton] at bytes
  exact bytes

theorem collect_inv (inv : Inv config server) {task : EventData}
    (queue : (server.workers w).pipe = task :: tasks)
    (fresh : task.package.id ∉ server.dropped) (more : task.type ≠ .packageEnd) :
    Inv config (({ server with kept := task.package.id :: server.kept } : Server).setWorker w
      ⟨(server.workers w).inBuffer, tasks, (server.workers w).str ++ task.data,
        (server.workers w).parts ++ [task]⟩) := by
  let after : Server := ({ server with kept := task.package.id :: server.kept } : Server).setWorker w
    ⟨(server.workers w).inBuffer, tasks, (server.workers w).str ++ task.data,
      (server.workers w).parts ++ [task]⟩
  have same : ∀ w', line config after w' = line config server w' := by
    intro w'
    have same_rest : rest config after w' = rest config server w' := rfl
    rw [line, line, same_rest]
    by_cases here : w' = w
    · subst here
      simp only [after, Server.setWorker, update_self]
      rw [queue]
      simp
    · simp only [after, Server.setWorker, update_of_ne here]
  refine ⟨?_, ?_, ?_, ?_, ?_, inv.loop, inv.received⟩
  · intro w' other mem
    by_cases here : w' = w
    · subst here
      simp only [Server.setWorker, update_self, List.mem_append,
        mem_singleton] at mem ⊢
      rcases mem with mem | rfl
      · exact ⟨(inv.parts w' other mem).1, .tail _ (inv.parts w' other mem).2⟩
      · exact ⟨more, .head _⟩
    · simp only [Server.setWorker, update_of_ne here] at mem
      exact ⟨(inv.parts w' other mem).1, .tail _ (inv.parts w' other mem).2⟩
  · intro w'
    by_cases here : w' = w
    · subst here
      simp only [Server.setWorker, update_self]
      rw [List.flatMap_append, List.flatMap_singleton, inv.str w']
    · simp only [Server.setWorker, update_of_ne here]
      exact inv.str w'
  · intro w'
    rw [same w']
    exact inv.line w'
  · intro w' other mem
    rw [same w'] at mem
    exact inv.genuine w' other mem
  · exact List.forall_mem_cons.mpr ⟨fresh, inv.disjoint⟩

theorem receive_inv (inv : Inv config server) {task : EventData}
    (queue : (server.workers w).pipe = task :: tasks)
    (fresh : task.package.id ∉ server.dropped) (last : task.type = .packageEnd) :
    Inv config { ({ server with kept := task.package.id :: server.kept } : Server).setWorker w
        ⟨(server.workers w).inBuffer, tasks, [], []⟩ with
      received := server.received ++ [⟨task.fd, (server.workers w).str ++ task.data,
        (server.workers w).parts ++ [task]⟩] } := by
  have whole := inv.line w
  have genuine := inv.genuine w
  rw [line, queue, List.cons_append] at whole genuine
  let after : Server := { ({ server with kept := task.package.id :: server.kept } : Server).setWorker w
      ⟨(server.workers w).inBuffer, tasks, [], []⟩ with
    received := server.received ++ [⟨task.fd, (server.workers w).str ++ task.data,
      (server.workers w).parts ++ [task]⟩] }
  have same_rest : ∀ w', rest config after w' = rest config server w' := fun _ => rfl
  have elsewhere : ∀ w', w' ≠ w → line config after w' = line config server w' := by
    intro w' other
    rw [line, line, same_rest]
    simp only [after, Server.setWorker, update_of_ne other]
  have here : line config after w =
      tasks ++ ((server.workers w).inBuffer ++ rest config server w) := by
    rw [line, same_rest]
    simp only [after, Server.setWorker, update_self]
    rfl
  obtain ⟨shape, known⟩ := genuine task (mem_append_right _ (.head _))
  refine ⟨?_, ?_, ?_, ?_, ?_, inv.loop, ?_⟩
  · intro w' other mem
    by_cases same : w' = w
    · subst same
      simp only [Server.setWorker, update_self] at mem
      cases mem
    · simp only [Server.setWorker, update_of_ne same] at mem
      exact ⟨(inv.parts w' other mem).1, .tail _ (inv.parts w' other mem).2⟩
  · intro w'
    by_cases same : w' = w
    · subst same
      simp only [Server.setWorker, update_self]
      rfl
    · simp only [Server.setWorker, update_of_ne same]
      exact inv.str w'
  · intro w'
    by_cases same : w' = w
    · subst same
      rw [here]
      exact whole.behind.anew last
    · rw [elsewhere w' same]
      exact inv.line w'
  · intro w' other mem
    by_cases same : w' = w
    · subst same
      rw [here] at mem
      exact genuine other (mem_append_right _ (.tail _ mem))
    · rw [elsewhere w' same] at mem
      exact inv.genuine w' other mem
  · exact List.forall_mem_cons.mpr ⟨fresh, inv.disjoint⟩
  · intro receive mem
    rcases List.mem_append.1 mem with mem | mem
    · exact inv.received receive mem
    · rw [mem_singleton] at mem
      rw [mem]
      refine ⟨task.package, known, ?_, collected_data inv queue fresh last, _,
        collected_eq inv queue fresh⟩
      exact (congrArg EventData.fd shape).symm

theorem onTask_inv (inv : Inv config server)
    (fine : ∀ task rest, (server.workers w).pipe = task :: rest →
      if server.discardData config task.fd then task.package.id ∉ server.kept
      else task.package.id ∉ server.dropped) : Inv config (server.onTask config w) := by
  rw [Server.onTask]
  cases queue : (server.workers w).pipe with
  | nil => exact inv
  | cons task tasks =>
    have fate := fine task tasks queue
    simp only
    split_ifs with discarded last
    · rw [if_pos discarded] at fate
      refine inv.queued (queued_worker inv ?_ ?_ (fun _ => List.mem_cons_of_mem _)
        (fresh_drop inv fate) ?_)
      · rfl
      · rfl
      · rw [queue]
        refine ⟨[], [task], tasks ++ (server.workers w).inBuffer, rfl, rfl, ?_⟩
        intro other mem
        rw [mem_singleton] at mem
        rw [mem]
        exact .head _
    · rw [if_neg discarded] at fate
      exact receive_inv inv queue fate last
    · rw [if_neg discarded] at fate
      exact collect_inv inv queue fate last

theorem close_inv (inv : Inv config server) (session : Nat) :
    Inv config (server.close session) := by
  rw [Server.close]
  split_ifs
  · exact ⟨inv.parts, inv.str, inv.line, inv.genuine, inv.disjoint, inv.loop, inv.received⟩
  · exact inv

theorem finish_inv (inv : Inv config server) (session : Nat) : Inv config (server.finish session) :=
  ⟨inv.parts, inv.str, inv.line, inv.genuine, inv.disjoint, inv.loop, inv.received⟩

theorem step_inv (inv : Inv config server) {event : Event}
    (fine : allowed config server event = true) : Inv config (step config server event) := by
  cases event with
  | dispatch session data => exact dispatch_inv inv session data
  | fragment scheduled written =>
    refine sendFragment_inv (schedule_inv inv scheduled) written fun package offset looping => ?_
    have before : server.dispatching = some (package, offset) := by
      rw [Server.schedule] at looping
      split_ifs at looping <;> exact looping
    have kept : (server.schedule scheduled).kept = server.kept := by
      rw [Server.schedule]
      split_ifs <;> rfl
    intro is_lost
    rw [allowed, before] at fine
    simp only [is_lost, Bool.not_true, Bool.false_or, decide_eq_true_eq] at fine
    rw [kept]
    exact fine
  | pipeWrite w written =>
    refine pipeWrite_inv inv written fun task rest queue discarded => ?_
    rw [allowed, queue] at fine
    simp only [decide_eq_true_eq, Bool.or_eq_true] at fine
    exact fine.resolve_left discarded
  | task w =>
    refine onTask_inv inv fun task rest queue => ?_
    rw [allowed, queue] at fine
    simp only at fine
    split_ifs at fine ⊢
    · exact of_decide_eq_true fine
    · exact of_decide_eq_true fine
  | close session => exact close_inv inv session
  | finish session => exact finish_inv inv session

theorem run_inv (inv : Inv config server) {events : List Event}
    (fine : allAllowed config server events = true) : Inv config (run config server events) := by
  induction events generalizing server with
  | nil => exact inv
  | cons event events ih =>
    rw [allAllowed, Bool.and_eq_true] at fine
    exact ih (step_inv inv fine.1) fine.2

end

/-- In a run whose steps are allowed, every worker passes on whole packages of their sessions, and
collects at most one package. -/
theorem whole_of_allowed (config : Config) (events : List Event)
    (fine : allAllowed config .start events = true) : Whole config (run config .start events) :=
  (run_inv (inv_start config) fine).whole

def sampleConfig : Config := ⟨2, by decide, false, false⟩

def orderly : List Event :=
  [.dispatch 1 [1, 2, 3], .fragment (some 0) .sent, .fragment none .again, .task 0,
    .pipeWrite 0 .sent, .task 0, .close 1, .dispatch 1 [4], .fragment (some 0) .sent]

theorem whole_of_allowed_orderly : Whole sampleConfig (run sampleConfig .start orderly) :=
  whole_of_allowed sampleConfig orderly (by decide)

def spoiling : List Event :=
  [.dispatch 1 [1, 2, 3], .fragment (some 0) .sent, .task 0, .close 1, .fragment none .sent,
    .dispatch 2 [9], .fragment (some 0) .sent, .task 0]

/-- What is received for the second session starts with the bytes of the first. -/
theorem not_whole :
    ¬ ∀ (config : Config) (events : List Event), Whole config (run config .start events) := by
  intro always
  have mixed : ∃ receive ∈ (run sampleConfig .start spoiling).received,
      receive.fd = 2 ∧ receive.data = [1, 2, 9] := by decide
  have packages : ∀ package ∈ (run sampleConfig .start spoiling).packages,
      package.data ≠ [1, 2, 9] := by decide
  obtain ⟨receive, is_received, -, mixed⟩ := mixed
  obtain ⟨package, known, -, data, -⟩ :=
    (always sampleConfig spoiling).1 receive is_received
  exact packages package known (data.symm.trans mixed)

end PhpExts.Swoole.PackageDispatch
