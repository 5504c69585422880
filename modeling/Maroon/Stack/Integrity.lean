import Maroon.App.Redelivery
import Maroon.Stack.Refines
import Maroon.System.Progress

/-!
# No transaction comes from nowhere

Every transaction that a node stores, or that waits in a channel or travels on
the wire, was handed to a gateway by its owner, and no party changes it on the
way (`Genuine`).  So each id in the log of a node is that of a transaction which
an owner handed over, and a quorum of nodes stores it (`logged_was_submitted`).
-/

namespace Maroon

open Lib

variable {PeerId Bytes : Type}

/-- The transactions that a message of the application carries. -/
def Outbox.txs : Outbox PeerId → List Transaction
  | .requestedTxsForPeer _ txs => txs
  | _ => []

/-- The transactions that are on the wire. -/
def Envelope.txs : Envelope PeerId Bytes → List Transaction
  | .gmRequest _ _ (.newTransaction tx) => [tx]
  | .m2mRequest _ _ (.missingTx txs) => txs
  | _ => []

/-- The owner of a gateway hands over the transaction. -/
def Setup.Submitted (setup : Setup PeerId) (tx : Transaction) : Prop :=
  ∃ g ∈ setup.gateways, setup.submits g (.newTransaction tx)

namespace App

theorem txs_of_sentFirst {a : App PeerId LogLineriazer} {event : Event PeerId}
    {msg : Outbox PeerId} (h : msg ∈ a.sentFirst event) : msg.txs = [] := by
  cases event with
  | advertiseTick =>
      rw [List.mem_singleton.mp h]
      rfl
  | _ => cases h

variable [LinearOrder PeerId] {sha256 : Sha256} {a a' : App PeerId LogLineriazer}
  {event : Event PeerId} {out : List (Outbox PeerId)}

/-- What is stored after a step was stored before, or the event has brought it. -/
theorem Step.lookup_cases (h : Step sha256 a event a' out) {id : Nat} {tx : Transaction}
    (htx : a'.transactions.lookup id = some tx) :
    a.transactions.lookup id = some tx ∨ tx ∈ event.txs := by
  obtain ⟨order, after, fuel, hb, hafter, -, hstored⟩ := h.store
  rw [hstored, updateSelfOffsets_lookup hb hafter] at htx
  cases hcopy : lastCopy event.txs id with
  | none =>
      rw [hcopy, Option.none_or] at htx
      exact Or.inl htx
  | some tx' =>
      rw [hcopy, Option.some_or] at htx
      cases htx
      exact Or.inr (lastCopy_eq_some hcopy).1

/-- A node sends transactions that it has stored. -/
theorem Step.sent_stored (h : Step sha256 a event a' out) (hkeyed : Keyed a.transactions)
    {msg : Outbox PeerId} (hmsg : msg ∈ out) {tx : Transaction} (htx : tx ∈ msg.txs) :
    a'.transactions.lookup tx.id = some tx := by
  cases h.sends hkeyed hmsg with
  | state => cases htx
  | request => cases htx
  | answer hstored => exact hstored.2 tx htx

end App

namespace Deployment

/-- All transactions were handed over by an owner. -/
structure Genuine (setup : Setup PeerId) (d : Deployment PeerId Bytes) : Prop where
  requests : ∀ g, ∀ request ∈ (d.gateway g).requests.queue,
    g ∈ setup.gateways ∧ setup.submits g request
  wire : ∀ envelope ∈ d.sent, ∀ tx ∈ envelope.txs, setup.Submitted tx
  inbox : ∀ p, ∀ msg ∈ (d.node p).inbox.queue, ∀ tx ∈ (Event.inbox msg).txs, setup.Submitted tx
  stored : ∀ p id tx, (d.node p).app.transactions.lookup id = some tx → setup.Submitted tx
  outbox : ∀ p, ∀ msg ∈ (d.node p).outbox.queue, ∀ tx ∈ msg.txs, setup.Submitted tx

theorem Genuine.new {setup : Setup PeerId} :
    Genuine setup (new setup : Deployment PeerId Bytes) where
  requests _ _ hin := absurd hin List.not_mem_nil
  wire _ hin := absurd hin (Set.notMem_empty _)
  inbox _ _ hin := absurd hin List.not_mem_nil
  stored _ _ _ hlook := by
    cases hlook
  outbox _ _ hin := absurd hin List.not_mem_nil

variable [LinearOrder PeerId] {sha256 : Sha256} {json : GossipJson PeerId Bytes}
  {setup : Setup PeerId} {d d' : Deployment PeerId Bytes} {p : PeerId} {move : Move PeerId Bytes}

/-- A network layer passes transactions on as they are. -/
theorem Genuine.passed_on (h : Genuine setup d) {self : P2P PeerId}
    {event : P2P.Event PeerId Bytes PeerId} {action : P2P.Action PeerId Bytes PeerId}
    (hcauses : P2P.Causes json self event action)
    (hout : ∀ msg, event = .outbox msg → msg ∈ (d.node p).outbox.queue)
    (harrives : ∀ swarmEvent, event = .swarm swarmEvent → Node.Arrives d p swarmEvent) :
    (∀ msg, action = .toApp msg → ∀ tx ∈ (Event.inbox msg).txs, setup.Submitted tx) ∧
      ∀ sender envelope, action.envelope sender = some envelope →
        ∀ tx ∈ envelope.txs, setup.Submitted tx := by
  cases hcauses with
  | sendMissingTx =>
      refine ⟨fun _ hmsg => (nomatch hmsg), fun sender envelope henvelope => ?_⟩
      cases henvelope
      exact h.outbox p _ (hout _ rfl)
  | newTransaction =>
      refine ⟨fun msg hmsg => ?_, fun _ _ henvelope => (nomatch henvelope)⟩
      cases hmsg
      cases harrives _ rfl with
      | gmRequest hin => exact h.wire _ hin.1
  | missingTx =>
      refine ⟨fun msg hmsg => ?_, fun _ _ henvelope => (nomatch henvelope)⟩
      cases hmsg
      cases harrives _ rfl with
      | m2mRequest hin => exact h.wire _ hin.1
  | _ =>
      refine ⟨fun msg hmsg tx htx => ?_, fun _ _ henvelope tx htx => ?_⟩
      · cases hmsg <;> cases htx
      · cases henvelope <;> cases htx

theorem Genuine.afterNode (h : Genuine setup d) (hkeyed : Keyed (d.node p).app.transactions)
    {label : Node.Label PeerId Bytes PeerId} {n : Node PeerId} {out : List (Outbox PeerId)}
    {actions : List (P2P.Action PeerId Bytes PeerId)}
    (harrives : ∀ event, label = .swarm event → Node.Arrives d p event)
    (hstep : Node.Step sha256 json (d.node p) label n out actions) :
    Genuine setup (d.afterNode p n actions) := by
  have hpassed : ∀ action ∈ actions,
      (∀ msg, action = .toApp msg → ∀ tx ∈ (Event.inbox msg).txs, setup.Submitted tx) ∧
        ∀ sender envelope, action.envelope sender = some envelope →
          ∀ tx ∈ envelope.txs, setup.Submitted tx := by
    intro action haction
    obtain ⟨event, hcauses, hout, hswarm⟩ := hstep.causes haction
    exact h.passed_on hcauses hout fun swarmEvent hevent =>
      harrives swarmEvent (hswarm swarmEvent hevent)
  have hstored : ∀ id tx, n.app.transactions.lookup id = some tx → setup.Submitted tx := by
    intro id tx hlook
    rcases hstep.app_cases with ⟨event, rfl, happ⟩ | ⟨happ, -⟩
    · rcases happ.lookup_cases hlook with hold | hnew
      · exact h.stored p id tx hold
      · cases event with
        | inbox msg =>
            exact h.inbox p msg (hstep.taken_mem.1 msg (List.mem_singleton_self msg)) tx hnew
        | _ => cases hnew
    · rw [happ] at hlook
      exact h.stored p id tx hlook
  refine ⟨h.requests, ?_, ?_, ?_, ?_⟩
  · intro envelope hin tx htx
    rcases mem_afterNode.mp hin with hold | ⟨action, haction, henvelope⟩
    · exact h.wire envelope hold tx htx
    · exact (hpassed action haction).2 p envelope henvelope tx htx
  · refine afterNode_forall
      (P := fun _ n => ∀ msg ∈ n.inbox.queue, ∀ tx ∈ (Event.inbox msg).txs, setup.Submitted tx)
      (fun msg hmsg => ?_) fun q _ => h.inbox q
    rcases hstep.moves.1.mem_queue hmsg with hold | hnew
    · exact h.inbox p msg hold
    · exact (hpassed _ (Node.mem_toApps.mp hnew)).1 msg rfl
  · exact afterNode_forall
      (P := fun _ n => ∀ id tx, n.app.transactions.lookup id = some tx → setup.Submitted tx)
      hstored fun q _ => h.stored q
  · refine afterNode_forall
      (P := fun _ n => ∀ msg ∈ n.outbox.queue, ∀ tx ∈ msg.txs, setup.Submitted tx)
      (fun msg hmsg tx htx => ?_) fun q _ => h.outbox q
    rcases hstep.moves.2.mem_queue hmsg with hold | hnew
    · exact h.outbox p msg hold tx htx
    · rcases hstep.app_cases with ⟨event, rfl, happ⟩ | ⟨-, ⟨-, rfl⟩ | ⟨-, event, reason, -, rfl⟩⟩
      · exact hstored _ _ (happ.sent_stored hkeyed hnew htx)
      · cases hnew
      · rw [App.txs_of_sentFirst hnew] at htx
        cases htx

theorem Genuine.afterGateway (h : Genuine setup d) {label : Gateway.Label PeerId PeerId}
    {g : Gateway PeerId} {actions : List (Gateway.Action PeerId PeerId)}
    (hp : p ∈ setup.gateways)
    (hsubmits : ∀ request, label = .send request → setup.submits p request)
    (hstep : Gateway.Step (d.gateway p) label g actions) :
    Genuine setup (d.afterGateway p g actions) where
  requests := by
    refine afterGateway_forall
      (P := fun q g => ∀ request ∈ g.requests.queue, q ∈ setup.gateways ∧ setup.submits q request)
      (fun request hrequest => ?_) fun q _ => h.requests q
    rcases hstep.moves.mem_queue hrequest with hold | hnew
    · exact h.requests p request hold
    · cases label with
      | send request' =>
          rw [List.mem_singleton.mp hnew]
          exact ⟨hp, hsubmits _ rfl⟩
      | p2p event => cases hnew
  wire := by
    intro envelope hin tx htx
    rcases mem_afterGateway.mp hin with hold | ⟨action, haction, henvelope⟩
    · exact h.wire envelope hold tx htx
    · cases action with
      | toOwner response => cases henvelope
      | metaExchangeResponse peerId response =>
          cases henvelope
          cases htx
      | gmRequest peerId request =>
          cases henvelope
          obtain ⟨tx'⟩ := request
          rw [List.mem_singleton.mp htx]
          obtain ⟨hg, hsubmitted⟩ := h.requests p _ (hstep.sent_waited haction)
          exact ⟨p, hg, hsubmitted⟩
  inbox := h.inbox
  stored := h.stored
  outbox := h.outbox

theorem Reachable.valid (hjson : json.Faithful) (h : Reachable sha256 json setup d)
    (p : PeerId) : (d.node p).app.Valid := by
  obtain ⟨s, hs, hrep⟩ := h.represented hjson
  exact hrep.app p ▸ hs.safe.valid p

theorem Reachable.genuine (hjson : json.Faithful) (h : Reachable sha256 json setup d) :
    Genuine setup d := by
  refine (Reachable.invariant (fun d => Reachable sha256 json setup d ∧ Genuine setup d)
    ⟨.refl, .new⟩ ?_ h).2
  rintro d d' move ⟨hr, hgenuine⟩ hstep
  refine ⟨hr.step hstep, ?_⟩
  cases hstep with
  | node _ harrives hstep =>
      exact hgenuine.afterNode (hr.valid hjson _).store.keyed harrives hstep
  | gateway hp _ hsubmits hstep => exact hgenuine.afterGateway hp hsubmits hstep
  | network => exact { hgenuine with }

/-- No node completes a range if no owner hands over a last id. -/
theorem Reachable.noLast (hjson : json.Faithful)
    (hlast : ∀ tx, setup.Submitted tx → tx.id % singleBlobSize ≠ singleBlobSize - 1)
    (h : Reachable sha256 json setup d) (p : PeerId) :
    NoLast (heldIds (d.node p).app.transactions) := by
  intro id hid
  obtain ⟨tx, hlook⟩ := HashMap.mem_iff_lookup.mp (mem_heldIds.mp hid)
  rw [← (h.valid hjson p).store.keyed id tx hlook]
  exact hlast tx ((h.genuine hjson).stored p id tx hlook)

/-- Every transaction that a node stores was handed over by an owner, and so was
every one whose id is in the log of a node.  A quorum of nodes stores the latter. -/
theorem logged_was_submitted (hjson : json.Faithful) (h : Reachable sha256 json setup d) :
    (∀ p id tx, (d.node p).app.transactions.lookup id = some tx →
      tx.id = id ∧ setup.Submitted tx) ∧
    ∀ p, ∀ id ∈ (d.node p).app.linearizer.sequence,
      (∃ tx, tx.id = id ∧ setup.Submitted tx) ∧
        ∃ quorum ⊆ setup.nodes, (setup.params.consensusNodes : Nat) ≤ quorum.card ∧
          ∀ q ∈ quorum, id ∈ (d.node q).app.transactions := by
  have hstored : ∀ p id tx, (d.node p).app.transactions.lookup id = some tx →
      tx.id = id ∧ setup.Submitted tx := fun p id tx hlook =>
    ⟨(h.valid hjson p).store.keyed id tx hlook, (h.genuine hjson).stored p id tx hlook⟩
  refine ⟨hstored, fun p id hid => ?_⟩
  obtain ⟨s, hs, hrep⟩ := h.represented hjson
  rw [← hrep.app p] at hid
  obtain ⟨quorum, hsub, hcard, hholds⟩ := hs.logged_quorum hid
  have hheld : ∀ q ∈ quorum, id ∈ (d.node q).app.transactions := by
    intro q hq
    rw [← hrep.app q]
    exact hholds q hq
  refine ⟨?_, quorum, hsub, hcard, hheld⟩
  obtain ⟨q, hq⟩ := Finset.card_pos.mp (setup.params.consensusNodes.pos.trans_le hcard)
  obtain ⟨tx, hlook⟩ := HashMap.mem_iff_lookup.mp (hheld q hq)
  exact ⟨tx, hstored q id tx hlook⟩

theorem logged_was_submitted_delivered : firstSetup.Submitted System.firstTx :=
  ((logged_was_submitted plainJson_faithful
    (delivered_reachable fun _ => Vector.replicate 32 0)).1 1 0 System.firstTx rfl).2

/-- An id is in a log exactly if it is in the part of its range. -/
theorem mem_logOf {sequence : List Nat} {id : Nat} :
    id ∈ logOf sequence (id / singleBlobSize) ↔ id ∈ sequence := by
  simp [logOf]

/-- Of two nodes, one has commited a prefix of what the other has commited of a
range.  Nodes with the same commited offsets have the same ids in their logs,
each once. -/
theorem logs_agree (hjson : json.Faithful) (h : Reachable sha256 json setup d) (p q : PeerId) :
    (∀ r, logOf (d.node p).app.linearizer.sequence r <+:
        logOf (d.node q).app.linearizer.sequence r ∨
      logOf (d.node q).app.linearizer.sequence r <+:
        logOf (d.node p).app.linearizer.sequence r) ∧
    ((d.node p).app.commitedOffsets = (d.node q).app.commitedOffsets →
      (d.node p).app.linearizer.sequence.Perm (d.node q).app.linearizer.sequence) := by
  obtain ⟨s, hs, hrep⟩ := h.represented hjson
  have hp := hs.tiled p
  have hq := hs.tiled q
  rw [hrep.app p] at hp
  rw [hrep.app q] at hq
  refine ⟨fun r => ?_, fun hcommited => ?_⟩
  · rw [hp.log_eq, hq.log_eq]
    exact (le_total _ _).imp range'_prefix range'_prefix
  · refine (List.perm_ext_iff_of_nodup hp.nodup hq.nodup).mpr fun id => ?_
    rw [← mem_logOf, hp.log_eq, hcommited, ← hq.log_eq, mem_logOf]

/-! Two nodes that need no other for a quorum, and commit the same. -/

def secondTx : Transaction := ⟨1, .created⟩

def soloSetup : Setup Nat where
  nodes := {0, 1}
  gateways := {2}
  params := { Params.default with consensusNodes := 1 }
  submits _ request :=
    request = .newTransaction System.firstTx ∨ request = .newTransaction secondTx

def soloApp (p : Nat) : App Nat LogLineriazer :=
  { App.new p soloSetup.params with
    selfOffsets := (∅ : HashMap Nat Nat).insert 0 1
    transactions := ((∅ : HashMap Nat Transaction).insert 0 System.firstTx).insert 1 secondTx
    offsets := (∅ : HashMap Nat (HashMap Nat Nat)).insert 0 ((∅ : HashMap Nat Nat).insert p 1) }

theorem soloApp_order (p : Nat) : EnumeratesNested [(0, [(p, 1)])] (soloApp p).offsets :=
  .insert .empty Finmap.notMem_empty (.singleton p 1)

section Run

variable (sha256 : Sha256)

/-- An application that needs no other commits both ids. -/
theorem solo_steps {p : Nat} (hp : p = 0 ∨ p = 1) :
    ∃ a b : App Nat LogLineriazer,
      App.Step sha256 (App.new p soloSetup.params) (.inbox (.newTransaction System.firstTx)) a [] ∧
      App.Step sha256 a (.inbox (.newTransaction secondTx)) (soloApp p) [] ∧
      App.Step sha256 (soloApp p) .advertiseTick
        { soloApp p with consensusOffset := (∅ : HashMap Nat Nat).insert 0 1 }
        [.state { offsets := (soloApp p).selfOffsets }] ∧
      App.Step sha256 { soloApp p with consensusOffset := (∅ : HashMap Nat Nat).insert 0 1 }
        .commitTick b [] ∧
      b.linearizer.sequence = [0, 1] ∧ b.commitedOffsets = (∅ : HashMap Nat Nat).insert 0 1 := by
  have horder := soloApp_order p
  rcases hp with rfl | rfl
  all_goals
    exact ⟨_, _,
      @App.Step.newTransaction _ _ _ _ _ _ _ _ _ [(0, [System.firstTx])] 3 rfl
        (.singleton 0 _) rfl,
      @App.Step.newTransaction _ _ _ _ _ _ _ _ _ [(0, [secondTx])] 3 rfl (.singleton 0 _) rfl,
      @App.Step.advertise _ _ _ _ _ _ _ _ _ ∅ [] 3 horder rfl horder rfl .empty,
      @App.Step.commit _ _ _ _ _ _ _ [(0, 1)] 3 (.singleton 0 1) rfl, rfl, rfl⟩

/-- A node that has both requests on the wire takes them in and commits them. -/
theorem solo_commits {d : Deployment Nat (GossipMessage Nat)} {p : Nat} (hp : p = 0 ∨ p = 1)
    (h : Reachable sha256 P2P.plainJson soloSetup d)
    (hnode : d.node p = Node.createStack p soloSetup.params) (hlink : d.links.Adj 2 p)
    (hfirst : .gmRequest 2 p (.newTransaction System.firstTx) ∈ d.onWire)
    (hsecond : .gmRequest 2 p (.newTransaction secondTx) ∈ d.onWire) :
    ∃ d', Reachable sha256 P2P.plainJson soloSetup d' ∧ d.onWire ⊆ d'.onWire ∧
      d'.links = d.links ∧ (∀ q, q ≠ p → d'.node q = d.node q) ∧
      (d'.node p).app.linearizer.sequence = [0, 1] ∧
      (d'.node p).app.commitedOffsets = (∅ : HashMap Nat Nat).insert 0 1 := by
  obtain ⟨a, b, ha, hsolo, hticked, hb, hlog, hcommited⟩ := solo_steps sha256 hp
  have hmem : p ∈ soloSetup.nodes := by
    rcases hp with rfl | rfl <;> decide
  -- both requests are taken in, and then the application handles them
  have h1 := h.takes_in hmem hnode rfl rfl hfirst hlink
  have h2 := h1.takes_in hmem (afterNode_self _ _ _ _) rfl rfl
    (mem_onWire_afterNode.mpr (Or.inl hsecond)) hlink
  have h3 := h2.handles hmem (afterNode_self _ _ _ _) rfl rfl (.inbox rfl) ha
  have h4 := h3.handles hmem (afterNode_self _ _ _ _) rfl rfl (.inbox rfl) hsolo
  have h5 := h4.handles hmem (afterNode_self _ _ _ _) rfl rfl .advertiseTick hticked
  have h6 := h5.handles hmem (afterNode_self _ _ _ _) rfl rfl .commitTick hb
  refine ⟨_, h6, fun envelope hin => ?_, rfl, fun q hne => ?_, ?_, ?_⟩
  · simp only [mem_onWire_afterNode, hin, true_or]
  · simp only [afterNode_ne _ hne]
  · rw [afterNode_self]
    exact hlog
  · rw [afterNode_self]
    exact hcommited

/-- The gateway once it is connected to both nodes. -/
def broadcasting : Gateway Nat where
  p2p := { maroonPeerIds := {0, 1} }
  requests := .new
  responses := .new

/-- The gateway sends two requests to both nodes. -/
theorem solo_sent : ∃ d : Deployment Nat (GossipMessage Nat),
    Reachable sha256 P2P.plainJson soloSetup d ∧ d.links = ⊤ ∧
      (∀ p, d.node p = Node.createStack p soloSetup.params) ∧
      ∀ p, p = 0 ∨ p = 1 → .gmRequest 2 p (.newTransaction System.firstTx) ∈ d.onWire ∧
        .gmRequest 2 p (.newTransaction secondTx) ∈ d.onWire := by
  have hg : 2 ∈ soloSetup.gateways := by decide
  have hnew : Reachable sha256 P2P.plainJson soloSetup (new soloSetup) := .refl
  have h0 := hnew.step (@Step.network _ _ _ _ _ _ _ ⊤ ∅ subset_rfl)
  have h1 := h0.step (@Step.of_gateway _ _ _ _ _ _ _ _ _
    (.p2p (.swarm (.connectionEstablished 1 0))) _ 2 hg (fun event hevent => by
      cases hevent
      exact .connectionEstablished (by decide)) nofun rfl (.p2p .swarm))
  have h2 := h1.step (@Step.of_gateway _ _ _ _ _ _ _ _ broadcasting
    (.p2p (.swarm (.connectionEstablished 0 1))) _ 2 hg (fun event hevent => by
      cases hevent
      exact .connectionEstablished (by decide)) nofun rfl (.p2p .swarm))
  have hsend : ∀ {d : Deployment Nat (GossipMessage Nat)} {request},
      Reachable sha256 P2P.plainJson soloSetup d → d.gateway 2 = broadcasting →
      soloSetup.submits 2 request →
      Reachable sha256 P2P.plainJson soloSetup
        ((d.afterGateway 2 (broadcasting.sendRequest request).1 []).afterGateway 2
          broadcasting [.gmRequest 0 request, .gmRequest 1 request]) := by
    intro d request hd hgateway hsubmits
    have h' := hd.step (@Step.of_gateway _ _ _ _ _ _ _ _ _ (.send request) _ 2 hg nofun
      (fun request' hrequest => by
        cases hrequest
        exact hsubmits) hgateway .send)
    exact h'.step (@Step.of_gateway _ _ _ _ _ _ _ _ _ (.p2p (.request request [0, 1])) _ 2
      hg nofun nofun (afterGateway_self _ _ _ _) (.p2p (.request rfl rfl)))
  have h3 := hsend h2 (afterGateway_self _ _ _ _) (Or.inl rfl)
  have h4 := hsend h3 (afterGateway_self _ _ _ _) (Or.inr rfl)
  have hon : ∀ p, p = 0 ∨ p = 1 → ∀ request,
      ∃ action ∈ [Gateway.Action.gmRequest 0 request, .gmRequest 1 request],
        action.envelope 2 = some (.gmRequest 2 p request : Envelope Nat (GossipMessage Nat)) := by
    rintro p (rfl | rfl) request
    · exact ⟨_, List.mem_cons_self, rfl⟩
    · exact ⟨_, List.mem_cons_of_mem _ (List.mem_singleton_self _), rfl⟩
  refine ⟨_, h4, rfl, fun _ => rfl, fun p hp => ⟨?_, mem_onWire_put.mpr (Or.inr (hon p hp _))⟩⟩
  exact mem_onWire_put.mpr (Or.inl (mem_onWire_put.mpr (Or.inl (mem_onWire_put.mpr
    (Or.inr (hon p hp _))))))

end Run

/-- Both nodes commit both ids. -/
theorem logs_agree_solo : ∃ d : Deployment Nat (GossipMessage Nat),
    (d.node 0).app.linearizer.sequence = [0, 1] ∧
      (d.node 0).app.linearizer.sequence.Perm (d.node 1).app.linearizer.sequence ∧
      (logOf (d.node 0).app.linearizer.sequence 0 <+: logOf (d.node 1).app.linearizer.sequence 0 ∨
        logOf (d.node 1).app.linearizer.sequence 0 <+:
          logOf (d.node 0).app.linearizer.sequence 0) := by
  have sha256 : Sha256 := fun _ => Vector.replicate 32 0
  obtain ⟨d, h, hlinks, hnodes, hsent⟩ := solo_sent sha256
  obtain ⟨d₁, h₁, hsub, hlinks₁, hothers, hlog, hcommited⟩ := solo_commits sha256 (Or.inl rfl) h
    (hnodes 0) (by rw [hlinks]; decide) (hsent 0 (Or.inl rfl)).1 (hsent 0 (Or.inl rfl)).2
  obtain ⟨d₂, h₂, -, -, hothers₂, -, hcommited₂⟩ := solo_commits sha256 (Or.inr rfl) h₁
    ((hothers 1 (by decide)).trans (hnodes 1)) (by rw [hlinks₁, hlinks]; decide)
    (hsub (hsent 1 (Or.inr rfl)).1) (hsub (hsent 1 (Or.inr rfl)).2)
  have hkept := hothers₂ 0 (by decide)
  obtain ⟨hranges, hperm⟩ := logs_agree plainJson_faithful h₂ 0 1
  exact ⟨d₂, hkept ▸ hlog, hperm ((hkept ▸ hcommited).trans hcommited₂.symm), hranges 0⟩

end Deployment

end Maroon
