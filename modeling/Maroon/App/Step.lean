import Maroon.App.App

/-!
# Steps and runs of one application

`loop_until_shutdown` waits for a tick, for a request or for a message and runs
one handler.  `Step` has one constructor for each of these, with the branches
of `handle_inbox_message` spelled out.  A step exists when the handler returns,
for some order of every map it iterates over and some fuel for its loops.  A
handler that panics or that never ends has no step.

`Runs a events a'` says that `a` goes to `a'` through these events, oldest
first.  `Runs.invariant` is the rule for what holds after every run.
-/

namespace Maroon

open Lib Outcome

/-- What `loop_until_shutdown` can wake up for. -/
inductive Event (PeerId : Type) where
  | advertiseTick
  | commitTick
  | request (request : Request)
  | inbox (msg : Inbox PeerId)

/-- What the event says about offsets of peers can be advertised by a node. -/
def Event.OffsetsAdvertisable {PeerId : Type} : Event PeerId → Prop
  | .inbox (.state _ state) => ∀ r o, state.offsets.lookup r = some o → Advertisable r o
  | _ => True

namespace App

variable {PeerId L : Type} [LinearOrder PeerId] [Linearizer L] {sha256 : Sha256}

/-- One round of `loop_until_shutdown`, with what is sent to the network. -/
inductive Step (sha256 : Sha256) :
    App PeerId L → Event PeerId → App PeerId L → List (Outbox PeerId) → Prop where
  | advertise {a a' : App PeerId L} {order order' : List (Nat × List (PeerId × Nat))}
      {delays : HashMap PeerId (List U64BlobIdClosedInterval)}
      {sends : List (PeerId × List U64BlobIdClosedInterval)} {fuel : Nat} :
      EnumeratesNested order a.offsets →
      a.recalculateConsensusOffsets order = .ok a' →
      EnumeratesNested order' a'.offsets →
      selfDelays fuel a'.transactions a'.selfOffsets order' = .ok delays →
      Enumerates sends delays →
      Step sha256 a .advertiseTick a' (.state { offsets := a'.selfOffsets } ::
        sends.map fun (peerId, intervals) => .requestMissingTxs peerId intervals)
  | commit {a a' : App PeerId L} {order : List (Nat × Nat)} {fuel : Nat} :
      Enumerates order a.consensusOffset →
      a.commitEpochIfNeeded sha256 fuel order = .ok a' →
      Step sha256 a .commitTick a' []
  | request {a : App PeerId L} {request : Request} : Step sha256 a (.request request) a []
  | state {a : App PeerId L} {peerId : PeerId} {state : NodeState} {order : List (Nat × Nat)} :
      Enumerates order state.offsets →
      Step sha256 a (.inbox (.state peerId state)) (a.handleState peerId order) []
  | nodes {a a' : App PeerId L} {nodes : Finset PeerId} {order : List PeerId} :
      (order : Multiset PeerId) = nodes.val →
      a.handleNodes order = .ok a' →
      Step sha256 a (.inbox (.nodes nodes)) a' []
  | newTransaction {a a' : App PeerId L} {tx : Transaction}
      {rangeMap : HashMap Nat (List Transaction)} {order : List (Nat × List Transaction)}
      {fuel : Nat} :
      txsToRangeTxMap [tx] = .ok rangeMap →
      Enumerates order rangeMap →
      a.handleNewTransaction fuel order = .ok a' →
      Step sha256 a (.inbox (.newTransaction tx)) a' []
  | missingTx {a a' : App PeerId L} {txs : List Transaction}
      {rangeMap : HashMap Nat (List Transaction)} {order : List (Nat × List Transaction)}
      {fuel : Nat} :
      txsToRangeTxMap txs = .ok rangeMap →
      Enumerates order rangeMap →
      a.handleMissingTx fuel order = .ok a' →
      Step sha256 a (.inbox (.missingTx txs)) a' []
  | requestMissingTxs {a : App PeerId L} {peerId : PeerId}
      {intervals : List U64BlobIdClosedInterval} {out : Outbox PeerId} {fuel : Nat} :
      a.handleRequestMissingTxs fuel peerId intervals = .ok out →
      Step sha256 a (.inbox (.requestMissingTxs peerId intervals)) a [out]

/-- A run through a list of events, oldest first. -/
inductive Runs (sha256 : Sha256) : App PeerId L → List (Event PeerId) → App PeerId L → Prop where
  | refl {a : App PeerId L} : Runs sha256 a [] a
  | tail {a b c : App PeerId L} {events : List (Event PeerId)} {event : Event PeerId}
      {out : List (Outbox PeerId)} :
      Runs sha256 a events b → Step sha256 b event c out → Runs sha256 a (events ++ [event]) c

/-- A run all of whose steps meet a condition on the state before the step and
on its event. -/
inductive RunsWhere (sha256 : Sha256) (Ok : App PeerId L → Event PeerId → Prop) :
    App PeerId L → List (Event PeerId) → App PeerId L → Prop where
  | refl {a : App PeerId L} : RunsWhere sha256 Ok a [] a
  | tail {a b c : App PeerId L} {events : List (Event PeerId)} {event : Event PeerId}
      {out : List (Outbox PeerId)} :
      RunsWhere sha256 Ok a events b → Ok b event → Step sha256 b event c out →
      RunsWhere sha256 Ok a (events ++ [event]) c

/-- A run from `a` to `a'` that takes the step from `b` to `c`.  The events
before that step are `before`. -/
def Passes (sha256 : Sha256) (a : App PeerId L) (events : List (Event PeerId)) (a' : App PeerId L)
    (before : List (Event PeerId)) (b : App PeerId L) (event : Event PeerId) (c : App PeerId L) :
    Prop :=
  ∃ out after, events = before ++ event :: after ∧ Runs sha256 a before b ∧
    Step sha256 b event c out ∧ Runs sha256 c after a'

namespace Runs

/-- What every step keeps holds after every run.  `Ok` is what is assumed of
the events. -/
theorem invariant (Ok : Event PeerId → Prop) (I : App PeerId L → Prop)
    (step : ∀ {b c event out}, Ok event → I b → Step sha256 b event c out → I c)
    {a a' : App PeerId L} {events : List (Event PeerId)} (h : Runs sha256 a events a')
    (hok : ∀ event ∈ events, Ok event) (init : I a) : I a' := by
  induction h with
  | refl => exact init
  | tail hr hs ih =>
      refine step (hok _ (by simp)) (ih fun event hev => ?_) hs
      exact hok event (List.mem_append_left _ hev)

theorem single {a a' : App PeerId L} {event : Event PeerId} {out : List (Outbox PeerId)}
    (h : Step sha256 a event a' out) : Runs sha256 a [event] a' :=
  refl.tail h

theorem append {a b c : App PeerId L} {events events' : List (Event PeerId)}
    (h : Runs sha256 a events b) (h' : Runs sha256 b events' c) :
    Runs sha256 a (events ++ events') c := by
  induction h' with
  | refl => simpa using h
  | tail _ hs ih =>
      rw [← List.append_assoc]
      exact ih.tail hs

end Runs

/-- What every step that meets the condition keeps holds after the run. -/
theorem RunsWhere.invariant {Ok : App PeerId L → Event PeerId → Prop} (I : App PeerId L → Prop)
    (step : ∀ {b c event out}, Ok b event → I b → Step sha256 b event c out → I c)
    {a a' : App PeerId L} {events : List (Event PeerId)} (h : RunsWhere sha256 Ok a events a')
    (init : I a) : I a' := by
  induction h with
  | refl => exact init
  | tail _ hok hs ih => exact step hok ih hs

theorem RunsWhere.runs {Ok : App PeerId L → Event PeerId → Prop} {a a' : App PeerId L}
    {events : List (Event PeerId)} (h : RunsWhere sha256 Ok a events a') :
    Runs sha256 a events a' := by
  induction h with
  | refl => exact .refl
  | tail _ _ hs ih => exact ih.tail hs

end App

end Maroon
