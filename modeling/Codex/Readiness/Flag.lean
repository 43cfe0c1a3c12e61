import Codex.Base.Machine

/-!
# The readiness flag

`ReadinessFlag` (`utils/readiness/src/lib.rs`): an atomic flag, a set of tokens under a
lock, and a watch channel. Any number of calls are under way, and a step is one atomic
operation, one operation of the lock or one of the channel. What a call does under the
lock with data that the lock protects is a step together with the operation after it.
-/

namespace Codex.Readiness

/-- An `i32`. -/
abbrev Token := BitVec 32

inductive ReadinessError where
  | tokenLockFailed
  | flagAlreadyReady
  deriving DecidableEq

/-- The flag, with its channel's value, version and the calls that have a receiver. The receiver
that `new` makes is dropped at once. -/
structure ReadinessFlag where
  ready : Bool := false
  nextId : Token := 1
  tokens : List Token := []
  locked : Bool := false
  value : Bool := false
  version : ℕ := 0
  receivers : List ℕ := []
  deriving DecidableEq

/-- `tx.send(true)`: without a receiver it fails and changes nothing. -/
def ReadinessFlag.send (flag : ReadinessFlag) : ReadinessFlag :=
  if flag.receivers = [] then flag else { flag with value := true, version := flag.version + 1 }

/-! ## Calls -/

/-- Where an `is_ready` is. -/
inductive CheckStage where
  | loading
  | locking
  | checking
  | unlocking (wasReady : Bool)
  | sending
  | reloading
  deriving DecidableEq

inductive SubscribeStage where
  | loading
  | locking
  | reloading
  | allocating
  | unlocking (token : Option Token)
  deriving DecidableEq

inductive MarkStage where
  | loading
  | locking
  | removing
  | storing
  | unlocking (removed : Bool)
  | sending
  deriving DecidableEq

/-- Where a `wait_ready` is once its `is_ready` has returned `false`. `seen` is the version that its
receiver has seen. -/
inductive WaitStage where
  | subscribing
  | borrowing (seen : ℕ)
  | parked (seen : ℕ)
  deriving DecidableEq

inductive Outcome where
  | checked (ready : Bool)
  | subscribed (result : Except ReadinessError Token)
  | marked (token : Token) (result : Except ReadinessError Bool)
  | waited
  | dropped
  deriving DecidableEq

/-- A call: `check` is an `is_ready`, on its own or the one that a `wait_ready` begins with. -/
inductive Call where
  | check (waiter : Bool) (stage : CheckStage)
  | subscribe (stage : SubscribeStage)
  | mark (token : Token) (stage : MarkStage)
  | wait (stage : WaitStage)
  | finished (outcome : Outcome)
  deriving DecidableEq

namespace Call

def waitReady : Call := .check true .loading
def subscribes : Call := .subscribe .loading
def markReady (token : Token) : Call := .mark token .loading

/-- `is_ready` returns. -/
def checked (waiter ready : Bool) : Call :=
  if waiter then if ready then .finished .waited else .wait .subscribing
  else .finished (.checked ready)

end Call

/-- One step of `is_ready`. The guard that `try_lock` gave is dropped where the set is not empty. -/
def advanceCheck (flag : ReadinessFlag) (waiter : Bool) : CheckStage → ReadinessFlag × Call
  | .loading => (flag, if flag.ready then .checked waiter true else .check waiter .locking)
  | .locking =>
    if flag.locked then (flag, .check waiter .reloading)
    else ({ flag with locked := true }, .check waiter .checking)
  | .checking =>
    if flag.tokens = [] then
      ({ flag with ready := true }, .check waiter (.unlocking flag.ready))
    else ({ flag with locked := false }, .check waiter .reloading)
  | .unlocking wasReady =>
    ({ flag with locked := false },
      if wasReady then .checked waiter true else .check waiter .sending)
  | .sending => (flag.send, .checked waiter true)
  | .reloading => (flag, .checked waiter flag.ready)

/-- One step of `subscribe`; a lock that is held is waited for. -/
def advanceSubscribe (flag : ReadinessFlag) : SubscribeStage → Option (ReadinessFlag × Call)
  | .loading =>
    some (flag, if flag.ready then .finished (.subscribed (.error .flagAlreadyReady))
      else .subscribe .locking)
  | .locking =>
    if flag.locked then none else some ({ flag with locked := true }, .subscribe .reloading)
  | .reloading =>
    some (flag, if flag.ready then .subscribe (.unlocking none) else .subscribe .allocating)
  | .allocating =>
    -- `fetch_add`, and the insertion under the lock
    let token := flag.nextId
    if token ≠ 0 ∧ token ∉ flag.tokens then
      some ({ flag with nextId := token + 1, tokens := token :: flag.tokens },
        .subscribe (.unlocking (some token)))
    else some ({ flag with nextId := token + 1 }, .subscribe .allocating)
  | .unlocking token =>
    some ({ flag with locked := false }, .finished (.subscribed (match token with
      | some token => .ok token
      | none => .error .flagAlreadyReady)))

/-- One step of `mark_ready`. -/
def advanceMark (flag : ReadinessFlag) (token : Token) : MarkStage → Option (ReadinessFlag × Call)
  | .loading =>
    some (flag, if flag.ready || token == 0 then .finished (.marked token (.ok false))
      else .mark token .locking)
  | .locking =>
    if flag.locked then none else some ({ flag with locked := true }, .mark token .removing)
  | .removing =>
    if token ∈ flag.tokens then
      some ({ flag with tokens := flag.tokens.erase token }, .mark token .storing)
    else some (flag, .mark token (.unlocking false))
  | .storing => some ({ flag with ready := true }, .mark token (.unlocking true))
  | .unlocking true => some ({ flag with tokens := [], locked := false }, .mark token .sending)
  | .unlocking false =>
    some ({ flag with locked := false }, .finished (.marked token (.ok false)))
  | .sending => some (flag.send, .finished (.marked token (.ok true)))

/-- One step of `wait_ready` after its `is_ready`. The receiver is dropped when the call returns. -/
def advanceWait (flag : ReadinessFlag) (call : ℕ) : WaitStage → Option (ReadinessFlag × Call)
  | .subscribing =>
    some ({ flag with receivers := call :: flag.receivers }, .wait (.borrowing flag.version))
  | .borrowing seen =>
    if flag.value then
      some ({ flag with receivers := flag.receivers.erase call }, .finished .waited)
    else some (flag, .wait (.parked seen))
  | .parked seen =>
    if flag.version = seen then none else some (flag, .wait (.borrowing flag.version))

def advance (flag : ReadinessFlag) (index : ℕ) : Call → Option (ReadinessFlag × Call)
  | .check waiter stage => some (advanceCheck flag waiter stage)
  | .subscribe stage => advanceSubscribe flag stage
  | .mark token stage => advanceMark flag token stage
  | .wait stage => advanceWait flag index stage
  | .finished _ => none

/-- A call that waits for the lock gives up after a second. -/
def timeout : Call → Option Call
  | .subscribe .locking => some (.finished (.subscribed (.error .tokenLockFailed)))
  | .mark token .locking => some (.finished (.marked token (.error .tokenLockFailed)))
  | _ => none

/-- A future can be dropped where it awaits. -/
def dropCall (flag : ReadinessFlag) (index : ℕ) : Call → Option (ReadinessFlag × Call)
  | .subscribe .locking | .mark _ .locking => some (flag, .finished .dropped)
  | .wait (.parked _) =>
    some ({ flag with receivers := flag.receivers.erase index }, .finished .dropped)
  | _ => none

/-! ## Runs -/

structure FlagCalls where
  flag : ReadinessFlag := {}
  calls : List Call := []
  deriving DecidableEq

inductive Action where
  | call (call : Call)
  | advance (index : ℕ)
  | timeout (index : ℕ)
  | drop (index : ℕ)
  deriving DecidableEq

/-- A call as it begins. -/
def Call.begins : Call → Bool
  | .check _ .loading | .subscribe .loading | .mark _ .loading => true
  | _ => false

def FlagCalls.put (s : FlagCalls) (index : ℕ) (moved : ReadinessFlag × Call) : FlagCalls :=
  ⟨moved.1, s.calls.set index moved.2⟩

def step (s : FlagCalls) : Action → Option FlagCalls
  | .call call => if call.begins then some { s with calls := s.calls ++ [call] } else none
  | .advance index =>
    s.calls[index]?.bind fun call => (advance s.flag index call).map (s.put index)
  | .timeout index =>
    s.calls[index]?.bind fun call => (timeout call).map fun call => s.put index (s.flag, call)
  | .drop index =>
    s.calls[index]?.bind fun call => (dropCall s.flag index call).map (s.put index)

end Codex.Readiness
