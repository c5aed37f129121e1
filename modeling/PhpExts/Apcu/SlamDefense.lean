import PhpExts.Apcu.Cache

/-!
# The defence against slams

`apc_cache_defense` compares the key of a store with `lastkey` in the header, and is to report that
another owner has just stored the same key. It writes `lastkey` only where hash and length agree
with what is there already. At first `lastkey` is all zeros, as it is again after an expunge, and no
key has length zero; so nothing is ever written there, and no slam is reported (`silent`).
-/

namespace PhpExts.Apcu.SlamDefense

open PhpExts.Zend

/-- A store: the key, as `apc_cache_make_key` and its callers give it, with its zero byte; the owner,
which is a process or a thread; the second in which the key is made, and the one in which the
defence looks at the clock. -/
structure Request where
  str : Bytes
  owner : Nat
  made : Int
  now : Int
  nonempty : str ≠ []

/-- `cache->header->lastkey`. -/
structure LastKey where
  h : Nat
  len : Nat
  mtime : Int
  owner : Nat
  deriving DecidableEq

/-- What `memset` leaves. -/
def LastKey.zero : LastKey := ⟨0, 0, 0, 0⟩

/-- A store, or an expunge, which wipes `lastkey`. -/
inductive Event where
  | store (request : Request)
  | expunge

section

variable (hash : Bytes → Nat) (defend : Bool)

def apcCacheDefense (last : LastKey) (request : Request) : Bool × LastKey :=
  if defend then
    if last.h = hash request.str ∧ last.len = request.str.length then
      if last.mtime = request.made ∧ request.owner ≠ last.owner then (true, last)
      else (false, ⟨hash request.str, request.str.length, request.now, request.owner⟩)
    else (false, last)
  else (false, last)

structure Call where
  request : Request
  stored : Option Request
  slam : Bool

/-- The calls of a run. A request is stored unless it is reported as a slam; after an expunge
nothing is. -/
def calls : LastKey → Option Request → List Event → List Call
  | _, _, [] => []
  | _, _, .expunge :: events => calls .zero none events
  | last, stored, .store request :: events =>
    let (slam, last') := apcCacheDefense hash defend last request
    ⟨request, stored, slam⟩ :: calls last' (if slam then stored else some request) events

def Slams (request : Request) : Option Request → Prop
  | none => False
  | some stored =>
    stored.str = request.str ∧ stored.now = request.made ∧ stored.owner ≠ request.owner

/-- A call is answered as it should be: a slam is reported, and nothing is for a different key or for
the same owner. -/
def Call.Right (call : Call) : Prop :=
  (Slams call.request call.stored → call.slam = true) ∧
    (call.slam = true → ∃ stored, call.stored = some stored ∧ stored.str = call.request.str ∧
      stored.owner ≠ call.request.owner)

def Defends (events : List Event) : Prop :=
  ∀ call ∈ calls hash defend .zero none events, call.Right

end

variable {hash : Bytes → Nat} {defend : Bool} {last : LastKey} {stored : Option Request}
  {events : List Event}

theorem apcCacheDefense_of_zero (zero : last.len = 0) (request : Request) :
    apcCacheDefense hash defend last request = (false, last) := by
  have differ : ¬(last.h = hash request.str ∧ last.len = request.str.length) := by
    rintro ⟨-, len⟩
    apply request.nonempty
    exact List.length_eq_zero_iff.mp (len.symm.trans zero)
  rw [apcCacheDefense, if_neg differ]
  split <;> rfl

theorem calls_store (zero : last.len = 0) (request : Request) :
    calls hash defend last stored (.store request :: events) =
      ⟨request, stored, false⟩ :: calls hash defend last (some request) events := by
  rw [calls, apcCacheDefense_of_zero zero]
  rfl

theorem Call.right_of_quiet_iff {call : Call} (quiet : call.slam = false) :
    call.Right ↔ ¬Slams call.request call.stored := by
  rw [Call.Right, quiet]
  constructor
  · rintro ⟨report, -⟩ slams
    cases report slams
  · intro none_
    refine ⟨fun slams => absurd slams none_, fun absurd_slam => ?_⟩
    cases absurd_slam

/-- The stores of a run, each with the one before it, as far as no expunge comes between. -/
def stores : Option Request → List Event → List (Option Request × Request)
  | _, [] => []
  | _, .expunge :: events => stores none events
  | before, .store request :: events => (before, request) :: stores (some request) events

theorem calls_eq_stores (zero : last.len = 0) : calls hash defend last stored events =
      (stores stored events).map fun pair => ⟨pair.2, pair.1, false⟩ := by
  induction events generalizing last stored with
  | nil => rfl
  | cons event events ih =>
    cases event with
    | expunge => exact ih rfl
    | store request =>
      rw [calls_store zero, ih zero]
      rfl

/-- A run is defended exactly if no store in it is a slam on the store before it. -/
theorem defends_iff (hash : Bytes → Nat) (defend : Bool) (events : List Event) :
    Defends hash defend events ↔ ∀ pair ∈ stores none events, ¬Slams pair.2 pair.1 := by
  rw [Defends, calls_eq_stores rfl]
  constructor
  · intro right pair mem
    have := right ⟨pair.2, pair.1, false⟩ (List.mem_map.mpr ⟨pair, mem, rfl⟩)
    exact (Call.right_of_quiet_iff rfl).mp this
  · intro none_ call mem
    obtain ⟨pair, isPair, rfl⟩ := List.mem_map.mp mem
    exact (Call.right_of_quiet_iff rfl).mpr (none_ pair isPair)

/-- Two processes store the same key in the same second. -/
theorem not_defends : ¬∀ (hash : Bytes → Nat) (events : List Event), Defends hash true events := by
  intro defends
  have right := defends (fun _ => 7)
    [.store ⟨[97, 0], 1, 5, 5, by decide⟩, .store ⟨[97, 0], 2, 5, 5, by decide⟩]
  rw [Defends, calls_store rfl, calls_store rfl] at right
  have second := (right _ (.tail _ (.head _))).1
  have reported := second ⟨rfl, rfl, by decide⟩
  cases reported

end PhpExts.Apcu.SlamDefense
