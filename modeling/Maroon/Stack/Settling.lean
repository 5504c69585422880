import Maroon.Stack.Running
import Maroon.System.Convergence

/-!
# Deployments can settle

As long as the nodes run they can handle what waits in their channels, and then
nothing but what is on the wire is left (`Live.drain_all`).  From there, while
every two of them are connected, they can follow any run of the system in which
only what is sent from now on arrives (`follows`).  This is the converse of
`simulates`.

So the nodes can come, without the gateways and their owners, to a state in which
they all have, and have commited, the contiguous prefix of every range
(`can_settle`), whatever the network has lost before.
-/

namespace Maroon

open Lib Relation

/-! ## Nodes that make steps on their own -/

namespace Node

variable {PeerId Bytes ResponseChannel : Type}

/-- A step that no owner, gateway or connection takes part in. -/
def Label.Internal : Label PeerId Bytes ResponseChannel → Prop
  | .app (.request _) => False
  | .app _ | .outbox _ => True
  | .swarm (.behaviour (.gossipsub _)) | .swarm (.behaviour (.m2mReqRes _)) => True
  | _ => False

/-- Nothing waits between the two tasks. -/
structure Drained (n : Node PeerId) : Prop where
  inbox : n.inbox.queue = []
  outbox : n.outbox.queue = []

/-- A transaction with this id is stored or waits for the application. -/
def Has (n : Node PeerId) (id : Nat) : Prop :=
  id ∈ n.app.transactions ∨ ∃ msg ∈ n.inbox.queue, ∃ tx ∈ (Event.inbox msg).txs, tx.id = id

theorem Drained.has_iff {n : Node PeerId} (h : n.Drained) {id : Nat} :
    n.Has id ↔ id ∈ n.app.transactions := by
  simp [Has, h.inbox]

variable [LinearOrder PeerId] {sha256 : Sha256} {json : GossipJson PeerId Bytes}
  {n n₁ n' : Node PeerId} {label : Label PeerId Bytes ResponseChannel} {event : Event PeerId}
  {a : App PeerId LogLineriazer} {out : List (Outbox PeerId)}
  {actions : List (P2P.Action PeerId Bytes ResponseChannel)}

theorem Step.shutdown_eq (h : Step sha256 json n label n' out actions)
    (hinternal : label.Internal) : n'.shutdown = n.shutdown := by
  cases h with
  | invoke => cases hinternal
  | shutdown => cases hinternal
  | @handle n₁ event a out _ hwakes _ =>
      have hkept : n₁.shutdown = n.shutdown := by rw [hwakes.frame]
      exact (send_frame { n₁ with app := a } out).2.2.trans hkept
  | @panic n₁ event reason _ hwakes _ =>
      have hkept : n₁.shutdown = n.shutdown := by rw [hwakes.frame]
      exact (send_frame n₁ _).2.2.trans hkept
  | outbox _ _ hround => rw [(roundP2P_performed hround).frame]
  | swarm _ hround => rw [(roundP2P_performed hround).frame]

/-- An application that handles its next message has what it had, and what the
message brought. -/
theorem has_of_handled {msg : Inbox PeerId} {inbox : Channel (Inbox PeerId)}
    (hrecv : n.inbox.recv = some (msg, inbox)) (happ : App.Step sha256 n.app (.inbox msg) a out)
    (hinbox : n'.inbox = inbox) (heq : n'.app = a) {id : Nat} : n'.Has id ↔ n.Has id := by
  rw [Has, Has, hinbox, heq, happ.mem_transactions, (Channel.recv_eq_some.mp hrecv).1]
  simp only [List.mem_cons, exists_eq_or_imp, or_assoc]

end Node

namespace Deployment

variable {PeerId Bytes : Type}

/-- The ids of all that the nodes have. -/
def held (setup : Setup PeerId) (d : Deployment PeerId Bytes) : Set Nat :=
  {id | ∃ p ∈ setup.nodes, (d.node p).Has id}

/-- All nodes but one are as they were. -/
def SameBut (p : PeerId) (d d' : Deployment PeerId Bytes) : Prop :=
  ∀ q, q ≠ p → d'.node q = d.node q

theorem SameBut.trans {p : PeerId} {d₁ d₂ d₃ : Deployment PeerId Bytes} (h : SameBut p d₁ d₂)
    (h' : SameBut p d₂ d₃) : SameBut p d₁ d₃ :=
  fun q hne => (h' q hne).trans (h q hne)

variable [LinearOrder PeerId]

/-- An internal step of a node. -/
def Exchange (sha256 : Sha256) (json : GossipJson PeerId Bytes) (setup : Setup PeerId)
    (d d' : Deployment PeerId Bytes) : Prop :=
  ∃ p label, label.Internal ∧ Step sha256 json setup d (.node p label) d'

/-- A deployment in which no node has been shut down, and every two of them are
connected. -/
structure Live (sha256 : Sha256) (json : GossipJson PeerId Bytes) (setup : Setup PeerId)
    (d : Deployment PeerId Bytes) : Prop where
  reachable : Reachable sha256 json setup d
  up : ∀ p ∈ setup.nodes, (d.node p).shutdown = false
  mesh : (setup.nodes : Set PeerId).Pairwise d.links.Adj

variable {sha256 : Sha256} {json : GossipJson PeerId Bytes} {setup : Setup PeerId}
  {d d' : Deployment PeerId Bytes} {s s' : System PeerId} {p : PeerId}

theorem Exchange.mk (hp : p ∈ setup.nodes) {label : Node.Label PeerId Bytes PeerId}
    {n : Node PeerId} {out : List (Outbox PeerId)} {actions : List (P2P.Action PeerId Bytes PeerId)}
    (h : Node.Step sha256 json (d.node p) label n out actions) (hinternal : label.Internal)
    (harrives : ∀ event, label = .swarm event → Node.Arrives d p event) :
    Exchange sha256 json setup d (d.afterNode p n actions) :=
  ⟨p, label, hinternal, .node hp harrives h⟩

theorem Live.exchange (h : Live sha256 json setup d) (hstep : Exchange sha256 json setup d d') :
    Live sha256 json setup d' := by
  obtain ⟨p, label, hinternal, hstep⟩ := hstep
  refine ⟨h.reachable.step hstep, ?_, ?_⟩
  · cases hstep with
    | node _ _ hstep =>
        exact afterNode_forall (P := fun q n => q ∈ setup.nodes → n.shutdown = false)
          (fun hp => (hstep.shutdown_eq hinternal).trans (h.up _ hp)) fun q _ => h.up q
  · cases hstep with
    | node => exact h.mesh

theorem Live.exchanges (h : Live sha256 json setup d)
    (hrun : ReflTransGen (Exchange sha256 json setup) d d') : Live sha256 json setup d' :=
  invariant_of_steps (Live sha256 json setup) Live.exchange hrun h

theorem Live.isOpen (h : Live sha256 json setup d) (hjson : json.Faithful)
    (hvalid : ∀ tx, setup.Submitted tx → Accepted tx.id) (hp : p ∈ setup.nodes) :
    (d.node p).inbox.isOpen = true ∧ (d.node p).outbox.isOpen = true :=
  (h.reachable.handled hjson hvalid).running p (h.up p hp)

/-! ## What waits can be handled -/

/-- The network layer of a node puts on the wire what waits for it. -/
theorem drain_outbox (hjson : json.Faithful) (hp : p ∈ setup.nodes)
    (d : Deployment PeerId Bytes) :
    ∃ d', ReflTransGen (Exchange sha256 json setup) d d' ∧ SameBut p d d' ∧
      d'.node p = { d.node p with outbox := (d'.node p).outbox } ∧
      (d'.node p).outbox.queue = [] ∧ ∀ s, Represents json d s → Represents json d' s ∧
        d.onWire ⊆ d'.onWire ∧
        ∀ msg ∈ (d.node p).outbox.queue, Carried json d'.onWire ⟨p, msg⟩ := by
  induction hqueue : (d.node p).outbox.queue generalizing d with
  | nil => exact ⟨d, .refl, fun _ _ => rfl, rfl, hqueue, fun _ hrep => ⟨hrep, subset_rfl, by simp⟩⟩
  | cons msg rest ih =>
      obtain ⟨outbox, hrecv, hrest, -⟩ := Channel.exists_recv hqueue
      have hstep := @Node.Step.outbox_open _ _ PeerId _ sha256 json _ _ _ hrecv
      have hmoved := Exchange.mk hp hstep trivial nofun
      have hqueue₁ := congrArg (fun n => n.outbox.queue) (afterNode_self d p
        { d.node p with outbox } (P2P.handleReceiverOutbox json (d.node p).p2p.peerId msg))
      obtain ⟨d', hrun, hsame, hframe, hnil, hrep⟩ := ih _ (hqueue₁.trans hrest)
      refine ⟨d', .head hmoved hrun, SameBut.trans (fun q hne => afterNode_ne d hne _ _) hsame, ?_,
        hnil, fun s h => ?_⟩
      · rw [afterNode_self] at hframe
        exact hframe
      · obtain ⟨hrep', hsub, hcarried⟩ := hrep s (h.other_step hjson (by nofun) hstep rfl)
        refine ⟨hrep', fun envelope hin => hsub (mem_onWire_afterNode.mpr (Or.inl hin)), ?_⟩
        rintro msg' (_ | ⟨_, hin⟩)
        · refine .of_performed fun action haction envelope henvelope => hsub ?_
          rw [← h.peerId p] at haction
          exact mem_onWire_afterNode.mpr (Or.inr ⟨action, haction, henvelope⟩)
        · exact hcarried msg' (hqueue₁.trans hrest ▸ hin)

/-- The application of a node handles what waits for it. -/
theorem Live.drain_inbox (h : Live sha256 json setup d) (hjson : json.Faithful)
    (hvalid : ∀ tx, setup.Submitted tx → Accepted tx.id) (hp : p ∈ setup.nodes) :
    ∃ d', ReflTransGen (Exchange sha256 json setup) d d' ∧ SameBut p d d' ∧
      (d'.node p).inbox.queue = [] ∧ ∀ id, (d'.node p).Has id ↔ (d.node p).Has id := by
  induction hqueue : (d.node p).inbox.queue generalizing d with
  | nil => exact ⟨d, .refl, fun _ _ => rfl, hqueue, fun _ => Iff.rfl⟩
  | cons msg rest ih =>
      obtain ⟨inbox, hrecv, hrest, -⟩ := Channel.exists_recv hqueue
      obtain ⟨hin, hout⟩ := h.isOpen hjson hvalid hp
      have hwakes : (d.node p).Wakes (.inbox msg) _ := .inbox hrecv
      have hreturns : App.Returns sha256 (d.node p).app (.inbox msg) :=
        (h.reachable.handled hjson hvalid).returns hjson h.reachable hwakes.taken_mem
      obtain ⟨a, out, happ⟩ := hreturns.step
      have hmoved := @Exchange.mk _ _ _ _ json _ _ _ hp _ _ _ _
        (Node.Step.handle_open hin hout hwakes happ) trivial nofun
      obtain ⟨d', hrun, hsame, hnil, hhas⟩ := ih (h.exchange hmoved) (by
        rw [afterNode_self]
        exact hrest)
      refine ⟨d', .head hmoved hrun, SameBut.trans (fun q hne => afterNode_ne d hne _ _) hsame,
        hnil, fun id => ?_⟩
      rw [hhas, afterNode_self]
      exact Node.has_of_handled hrecv happ rfl rfl

theorem Live.drain (h : Live sha256 json setup d) (hjson : json.Faithful)
    (hvalid : ∀ tx, setup.Submitted tx → Accepted tx.id) (hp : p ∈ setup.nodes) :
    ∃ d', ReflTransGen (Exchange sha256 json setup) d d' ∧ SameBut p d d' ∧
      (d'.node p).Drained ∧ ∀ id, (d'.node p).Has id ↔ (d.node p).Has id := by
  obtain ⟨d₁, hrun₁, hsame₁, hinbox, hhas⟩ := h.drain_inbox hjson hvalid hp
  obtain ⟨d₂, hrun₂, hsame₂, hframe, houtbox, -⟩ := drain_outbox hjson hp d₁
  refine ⟨d₂, hrun₁.trans hrun₂, hsame₁.trans hsame₂, ⟨?_, houtbox⟩, fun id => ?_⟩
  · rw [hframe]
    exact hinbox
  · rw [← hhas, hframe]
    rfl

/-- The nodes can handle all that waits for them. -/
theorem Live.drain_all (h : Live sha256 json setup d) (hjson : json.Faithful)
    (hvalid : ∀ tx, setup.Submitted tx → Accepted tx.id) :
    ∃ d', ReflTransGen (Exchange sha256 json setup) d d' ∧
      (∀ p ∈ setup.nodes, (d'.node p).Drained) ∧ d'.held setup = d.held setup := by
  let I : Deployment PeerId Bytes → Prop := fun t =>
    Live sha256 json setup t ∧ ∀ q id, (t.node q).Has id ↔ (d.node q).Has id
  have each : ∀ p ∈ setup.nodes, ∀ t, I t → ∃ t', ReflTransGen (Exchange sha256 json setup) t t' ∧
      I t' ∧ (t'.node p).Drained ∧ ∀ q, (t.node q).Drained → (t'.node q).Drained := by
    rintro p hp t ⟨hlive, hhas⟩
    obtain ⟨t', hrun, hsame, hdrained, hhas'⟩ := hlive.drain hjson hvalid hp
    refine ⟨t', hrun, ⟨hlive.exchanges hrun, fun q id => ?_⟩, hdrained, fun q hq => ?_⟩
    · rcases eq_or_ne q p with rfl | hne
      · rw [hhas', hhas]
      · rw [hsame q hne, hhas]
    · rcases eq_or_ne q p with rfl | hne
      · exact hdrained
      · exact hsame q hne ▸ hq
  obtain ⟨d', hrun, ⟨-, hhas⟩, hdrained⟩ := reach_all each ⟨h, fun _ _ => Iff.rfl⟩
  refine ⟨d', hrun, hdrained, Set.ext fun id => ?_⟩
  simp only [held, hhas]

/-! ## Runs of the system that can be followed -/

/-- A deployment in which nothing waits. -/
structure Settled (sha256 : Sha256) (json : GossipJson PeerId Bytes) (setup : Setup PeerId)
    (d : Deployment PeerId Bytes) : Prop extends Live sha256 json setup d where
  drained : ∀ p ∈ setup.nodes, (d.node p).Drained

/-- A settled deployment that has the nodes of the system, and on its wire all
that can still arrive there. -/
structure Mirrors (sha256 : Sha256) (json : GossipJson PeerId Bytes) (setup : Setup PeerId)
    (s : System PeerId) (d : Deployment PeerId Bytes) : Prop extends
    Settled sha256 json setup d where
  /-- The system may have sent more than can still arrive. -/
  represents : ∃ sent, s.sent ⊆ sent ∧
    System.Reachable sha256 setup.nodes setup.params { s with sent } ∧
      Represents json d { s with sent }
  carried : ∀ packet ∈ s.sent, Carried json d.onWire packet

/-- What the system can deliver can arrive in the deployment, and the network
layer hands it over. -/
theorem Mirrors.arrives (h : Mirrors sha256 json setup s d) (hjson : json.Faithful)
    (hencodes : ∀ message, (json.toVec message).isSome = true) (hp : p ∈ setup.nodes)
    {msg : Inbox PeerId} (hdel : Deliverable s.sent p (.inbox msg))
    (hinternal : (Event.inbox msg).Internal) (self : P2P PeerId) :
    ∃ swarmEvent actions, Node.Arrives d p swarmEvent ∧
      (Node.Label.swarm swarmEvent).Internal ∧
      self.round json (.swarm swarmEvent) = (self, actions) ∧ Node.toApps actions = [msg] := by
  obtain ⟨sent, hsub, hr, -⟩ := h.represents
  -- who has sent the packet is a neighbour
  have hlink : ∀ {q payload}, ⟨q, payload⟩ ∈ s.sent → q ≠ p → d.links.Adj q p :=
    fun hin hne => h.mesh (hr.sound _ (hsub hin)).sender hp hne
  have hself : ∀ {q payload}, ⟨q, payload⟩ ∈ s.sent → payload.addressee = some p → q ≠ p := by
    rintro q payload hin haddressee rfl
    exact (hr.sound _ (hsub hin)).addressee haddressee
  cases hdel with
  | @state sender state hin hne =>
      obtain ⟨data, hvec⟩ := Option.isSome_iff_exists.mp
        (hencodes { peerId := sender, payload := .state state })
      refine ⟨.behaviour (.gossipsub data), [.toApp (.state sender state)],
        .gossipsub (h.carried _ hin data hvec) hne ⟨sender, hlink hin hne⟩, trivial, ?_, rfl⟩
      simp only [P2P.round, P2P.handleSwarmEvent, hjson _ _ hvec]
  | nodes => cases hinternal
  | newTransaction => cases hinternal
  | @requestMissingTxs sender intervals hin =>
      exact ⟨.behaviour (.m2mReqRes (.message sender (.request (.getMissingTx intervals) sender))),
        _, .m2mRequest (h.carried _ hin) (hlink hin (hself hin rfl)), trivial, rfl, rfl⟩
  | @missingTx sender txs hin =>
      exact ⟨.behaviour (.m2mReqRes (.message sender (.request (.missingTx txs) sender))),
        _, .m2mRequest (h.carried _ hin) (hlink hin (hself hin rfl)), trivial, rfl, rfl⟩

/-- The application can be made to wake up for what the system can deliver. -/
theorem Mirrors.wakes (h : Mirrors sha256 json setup s d) (hjson : json.Faithful)
    (hencodes : ∀ message, (json.toVec message).isSome = true)
    (hvalid : ∀ tx, setup.Submitted tx → Accepted tx.id) (hp : p ∈ setup.nodes)
    {event : Event PeerId} (hdel : Deliverable s.sent p event) (hinternal : event.Internal) :
    ∃ d' n₁, ReflTransGen (Exchange sha256 json setup) d d' ∧ SameBut p d d' ∧
      (∀ t, Represents json d t → Represents json d' t) ∧ d.onWire ⊆ d'.onWire ∧
      (d'.node p).Wakes event n₁ ∧ n₁.inbox.queue = [] := by
  have hnil := (h.drained p hp).inbox
  cases event with
  | advertiseTick =>
      exact ⟨d, _, .refl, fun _ _ => rfl, fun _ hrep => hrep, subset_rfl, .advertiseTick, hnil⟩
  | commitTick =>
      exact ⟨d, _, .refl, fun _ _ => rfl, fun _ hrep => hrep, subset_rfl, .commitTick, hnil⟩
  | request request => cases hinternal
  | inbox msg =>
      obtain ⟨swarmEvent, actions, harrives, hlabel, hround, happs⟩ :=
        h.arrives hjson hencodes hp hdel hinternal (d.node p).p2p
      obtain ⟨hin, hout⟩ := h.isOpen hjson hvalid hp
      have hstep := @Node.Step.swarm_open _ _ _ _ sha256 _ _ _ _ _ hin hout hround
      have hevent : ∀ event, Node.Label.swarm swarmEvent = .swarm event →
          Node.Arrives d p event := by
        intro event heq
        cases heq
        exact harrives
      have hqueue : ((d.node p).inbox.push (Node.toApps actions)).queue = [msg] := by
        rw [Channel.push_queue hin, hnil, happs, List.nil_append]
      obtain ⟨inbox, hrecv, hrest, -⟩ := Channel.exists_recv hqueue
      refine ⟨_, { d.node p with inbox }, .single (.mk hp hstep hlabel hevent),
        fun q hne => afterNode_ne d hne _ _,
        fun t hrep => hrep.other_step hjson hevent hstep rfl,
        fun envelope hin => mem_onWire_afterNode.mpr (Or.inl hin), ?_, hrest⟩
      rw [afterNode_self]
      exact .inbox hrecv

/-- A settled deployment can follow the system, and settles again. -/
theorem follows (hjson : json.Faithful) (hencodes : ∀ message, (json.toVec message).isSome = true)
    (hvalid : ∀ tx, setup.Submitted tx → Accepted tx.id) :
    Simulates (System.InternalStep sha256 setup.nodes) (Exchange sha256 json setup)
      (fun _ => True) (Mirrors sha256 json setup) := by
  rintro s s' d - h ⟨p, event, out, hinternal, hsystem⟩
  have hp := hsystem.mem_nodes
  obtain ⟨d₁, n₁, hrun₁, hsame₁, hkept₁, hwire₁, hwakes, hnil⟩ :=
    h.wakes hjson hencodes hvalid hp hsystem.deliverable hinternal
  obtain ⟨sent, hsub, hr, hrep⟩ := h.represents
  obtain ⟨sent', hsub', hsystem'⟩ := hsystem.mono hsub
  have hrep₁ := hkept₁ _ hrep
  have hlive₁ := h.toLive.exchanges hrun₁
  obtain ⟨hin, hout⟩ := hlive₁.isOpen hjson hvalid hp
  have happ := hsystem'.app_self
  rw [hrep₁.app p] at happ
  have hstep := @Node.Step.handle_open _ _ PeerId _ sha256 json _ _ _ _ _ hin hout hwakes happ
  have hlabel : (Node.Label.app event : Node.Label PeerId Bytes PeerId).Internal := by
    cases event with
    | request request => cases hinternal
    | _ => trivial
  have hmoved := Exchange.mk hp hstep hlabel nofun
  obtain ⟨d₂, hrun₂, hsame₂, hframe, houtbox, hdrained⟩ :=
    drain_outbox hjson hp (d₁.afterNode p _ _)
  obtain ⟨hrep₂, hwire₂, hcarried⟩ := hdrained _ (hrep₁.app_step hjson hsystem' rfl hstep)
  have hrun := hrun₁.trans (.head hmoved hrun₂)
  refine ⟨d₂, hrun, ⟨h.toLive.exchanges hrun, fun q hq => ?_⟩,
    ⟨sent', hsub', hr.step hsystem', hrep₂⟩, fun packet hpacket => ?_⟩
  · rcases eq_or_ne q p with rfl | hne
    · refine ⟨?_, houtbox⟩
      rw [hframe, afterNode_self]
      exact hnil
    · rw [hsame₂ q hne, afterNode_ne _ hne, hsame₁ q hne]
      exact h.drained q hq
  · rcases hsystem.mem_sent.mp hpacket with hold | ⟨rfl, hnew⟩
    · exact (h.carried packet hold).mono fun envelope hin =>
        hwire₂ (mem_onWire_afterNode.mpr (Or.inl (hwire₁ hin)))
    · refine hcarried packet.payload ?_
      rw [afterNode_self, Channel.push_queue hout]
      exact List.mem_append_right _ hnew

/-- From every state that a deployment reaches, in which no node has been shut
down and every two nodes are connected, the nodes can come to one in which
nothing waits and they all agree.  The offset of a range is then the end of the
contiguous prefix of all that the nodes had or that waited for them in the
beginning, and the log of each has this prefix, but perhaps for its last id. -/
theorem can_settle (hjson : json.Faithful)
    (hencodes : ∀ message, (json.toVec message).isSome = true)
    (hvalid : ∀ tx, setup.Submitted tx → Accepted tx.id)
    (hlast : ∀ tx, setup.Submitted tx → tx.id % singleBlobSize ≠ singleBlobSize - 1)
    (hn : (setup.params.consensusNodes : Nat) ≤ setup.nodes.card)
    (h : Reachable sha256 json setup d) (hup : ∀ p ∈ setup.nodes, (d.node p).shutdown = false)
    (hmesh : (setup.nodes : Set PeerId).Pairwise d.links.Adj) :
    ∃ d', ReflTransGen (Exchange sha256 json setup) d d' ∧ ∀ p ∈ setup.nodes,
      (d'.node p).Drained ∧ (d'.node p).app.consensusOffset = (d'.node p).app.selfOffsets ∧
      ∀ r o, ((d'.node p).app.selfOffsets.lookup r = some o ↔
          IsPrefixEnd (d.held setup) (idOf r 0) singleBlobSize o) ∧
        ((d'.node p).app.selfOffsets.lookup r = some o →
          ∀ k < o, idOf r k ∈ (d'.node p).app.linearizer.sequence) := by
  have hlive : Live sha256 json setup d := ⟨h, hup, hmesh⟩
  obtain ⟨d₁, hrun₁, hdrained, hheld⟩ := hlive.drain_all hjson hvalid
  have hlive₁ := hlive.exchanges hrun₁
  obtain ⟨s, hs, hrep⟩ := hlive₁.reachable.represented hjson
  have hsheld : (s.held setup.nodes : Set ℕ) = d.held setup := by
    rw [← hheld]
    ext id
    rw [Finset.mem_coe, System.mem_held]
    refine exists_congr fun p => and_congr_right fun hp => ?_
    rw [(hdrained p hp).has_iff, hrep.app p]
  have hnoLast : NoLast (s.held setup.nodes : Set ℕ) := by
    intro id hid
    obtain ⟨p, -, hin⟩ := System.mem_held.mp (Finset.mem_coe.mp hid)
    rw [hrep.app p] at hin
    exact hlive₁.reachable.noLast hjson hlast p id (mem_heldIds.mpr hin)
  -- nothing that was sent so far is needed
  have hlossy := hs.lossy.lose (Set.empty_subset s.sent)
  have hmirrors : Mirrors sha256 json setup { s with sent := ∅ } d₁ :=
    ⟨⟨hlive₁, hdrained⟩, ⟨s.sent, Set.empty_subset _, hs, hrep⟩,
      fun _ hin => absurd hin (Set.notMem_empty _)⟩
  obtain ⟨s', hsrun, hquiescent, hcommitted⟩ := hlossy.commits hn hnoLast
  obtain ⟨d', hrun₂, hmirrors'⟩ := (follows hjson hencodes hvalid).run
    (fun _ _ => trivial) hsrun trivial hmirrors
  obtain ⟨sent, -, -, hrep'⟩ := hmirrors'.represents
  have hlossy' := hlossy.internals hsrun
  have hsheld' : s'.held setup.nodes = s.held setup.nodes := hlossy.held_eq hsrun
  refine ⟨d', hrun₁.trans hrun₂, fun p hp => ?_⟩
  rw [← hrep'.app p]
  refine ⟨hmirrors'.drained p hp, (hcommitted p hp).1, fun r o => ⟨?_, fun ho k hk => ?_⟩⟩
  · exact (hquiescent.isPrefixEnd hlossy' (hsheld' ▸ hnoLast) hp r o).trans
      (by rw [hsheld', hsheld])
  · exact (hcommitted p hp).mem_log hlossy' ho hk

/-- Node 1 has a transaction that node 0 can get from it. -/
theorem delivered_held : delivered.held firstSetup = {0} := by
  ext id
  constructor
  · rintro ⟨p, hp, hhas⟩
    have hstored : id ∈ (delivered.node p).app.transactions := by
      rcases Finset.mem_insert.mp hp with rfl | hp
      · exact (Node.Drained.has_iff ⟨rfl, rfl⟩).mp hhas
      · cases Finset.mem_singleton.mp hp
        exact (Node.Drained.has_iff ⟨rfl, rfl⟩).mp hhas
    rcases Finset.mem_insert.mp hp with rfl | hp
    · exact absurd hstored Finmap.notMem_empty
    · cases Finset.mem_singleton.mp hp
      have hone : id ∈ (∅ : HashMap Nat Transaction).insert 0 System.firstTx := hstored
      simpa [Finmap.notMem_empty] using hone
  · rintro rfl
    exact ⟨1, by decide, Or.inl (by decide)⟩

theorem can_settle_delivered : ∃ d' : Deployment Nat (GossipMessage Nat),
    ∀ p ∈ ({0, 1} : Finset Nat), (d'.node p).app.selfOffsets.lookup 0 = some 0 := by
  have hlast : ∀ tx, firstSetup.Submitted tx → tx.id % singleBlobSize ≠ singleBlobSize - 1 := by
    rintro tx ⟨g, -, heq⟩
    cases heq
    decide
  have hup : ∀ p ∈ firstSetup.nodes, (delivered.node p).shutdown = false := by decide
  obtain ⟨d', -, hsettled⟩ := can_settle plainJson_faithful (fun _ => rfl) firstSetup_accepted
    hlast (by decide) (delivered_reachable fun _ => Vector.replicate 32 0) hup
    fun p _ q _ hne => delivered_links hne
  refine ⟨d', fun p hp => ((hsettled p hp).2.2 0 0).1.mpr ?_⟩
  rw [delivered_held]
  exact ⟨by decide, fun i hi => by simp [Nat.le_zero.mp hi, idOf],
    fun _ hin => by simp [idOf] at hin⟩

end Deployment

end Maroon
