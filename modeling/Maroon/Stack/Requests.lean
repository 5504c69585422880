import Maroon.App.SelfOffsets
import Maroon.Stack.Layers

/-!
# The requests of the owner of a node

The owner of a node gets the state that the application had when it took the
request, or the application has ended (`state_requests`).  Later requests are
answered from later states: the offsets that the owner sees only grow
(`snapshots_grow`).
-/

namespace Maroon

open Lib

namespace Node

variable {PeerId Bytes ResponseChannel : Type}

open InvokerHandler

/-! ## One node -/

/-- The request that the owner makes. -/
def Label.invoked : Label PeerId Bytes ResponseChannel → Option Request
  | .invoke request => some request
  | _ => none

theorem filterMap_invoked (labels : List (Label PeerId Bytes ResponseChannel))
    (label : Label PeerId Bytes ResponseChannel) :
    (labels ++ [label]).filterMap Label.invoked =
      labels.filterMap Label.invoked ++ label.invoked.toList := by
  rw [List.filterMap_append]
  cases label <;> rfl

/-- The requests to a node are a session of the invoker with the application, which
answers each request as soon as it takes it. -/
structure Serves (n : Node PeerId) (invoked : List Request) (s : Session Request Response) :
    Prop where
  linked : s.Linked
  pair : s.pair = n.state
  held : s.held = []
  asked : s.asked = invoked
  answered : s.answers.map Prod.fst = s.received
  running : n.inbox.isOpen = true → .canceled ∉ s.pair.responses

variable {n n' n₁ : Node PeerId} {event : Event PeerId} {invoked : List Request}
  {s : Session Request Response} {peerId : PeerId} {params : Params}

theorem Serves.start : Serves (createStack peerId params) [] (Session.start) where
  linked := .start
  pair := rfl
  held := rfl
  asked := rfl
  answered := rfl
  running := by simp [Session.start, createInvokerHandlerPair]

/-- What does not touch the requests, nor stops the application. -/
theorem Serves.congr (h : Serves n invoked s) (hstate : n'.state = n.state)
    (hopen : n'.inbox.isOpen = true → n.inbox.isOpen = true) : Serves n' invoked s :=
  { h with
    pair := h.pair.trans hstate.symm
    running := fun hrunning => h.running (hopen hrunning) }

theorem Serves.stopApp (h : Serves n invoked s) :
    Serves n.stopApp invoked (s.step .dropHandler) where
  linked := h.linked.step trivial
  pair := congrArg dropHandler h.pair
  held := h.held
  asked := h.asked
  answered := h.answered
  running hopen := by cases hopen

theorem Serves.invoke (h : Serves n invoked s) {request : Request}
    {state : InvokerHandler Request Response} {future : Nat}
    (hreq : n.state.request request = .ok (state, future)) :
    Serves { n with state } (invoked ++ [request]) (s.step (.request request)) := by
  have hstep : s.step (.request request) =
      { s with pair := state, asked := s.asked ++ [request] } := by
    simp only [Session.step, h.pair, hreq]
  obtain ⟨-, -, hstate⟩ := request_ok.mp hreq
  refine ⟨h.linked.step trivial, ?_, ?_, ?_, ?_, fun hopen => ?_⟩
  · rw [hstep]
  · rw [hstep, ← h.held]
  · rw [hstep, ← h.asked]
  · rw [hstep]
    exact h.answered
  · rw [hstep]
    simp only [hstate, List.mem_append, List.mem_singleton, reduceCtorEq, or_false]
    exact h.pair ▸ h.running hopen

theorem Serves.next_mem (h : Serves n invoked s) {wrapper : RequestWrapper Request}
    {state : InvokerHandler Request Response} (hrecv : n.state.recv = some (wrapper, state)) :
    wrapper ∈ s.pair.channel.queue := by
  rw [h.pair, (recv_eq_some.mp hrecv).1]
  exact List.mem_cons_self

/-- The application takes the oldest request and answers it. -/
theorem Serves.answer (h : Serves n invoked s) {wrapper : RequestWrapper Request}
    {state : InvokerHandler Request Response} (hrecv : n.state.recv = some (wrapper, state))
    (res : Response) : ∃ s', s'.answers = s.answers ++ [(wrapper, res)] ∧
      Serves { n with state := state.respond wrapper res } invoked s' := by
  have hheld : s.held = [] := h.held
  have htake : s.step .recv = { s with
      pair := state, held := [wrapper], received := s.received ++ [wrapper] } := by
    simp only [Session.step, h.pair, hrecv, hheld, List.nil_append]
  have hrespond : (s.step .recv).step (.respond wrapper res) = { s with
      pair := state.respond wrapper res, held := [], received := s.received ++ [wrapper],
      answers := s.answers ++ [(wrapper, res)] } := by
    rw [htake]
    simp [Session.step, Session.without]
  have howned : (s.step .recv).Owned (.respond wrapper res) := by
    rw [htake]
    exact List.mem_singleton_self _
  have htaken : (s.step .recv).Linked := h.linked.step trivial
  obtain ⟨-, -, hresponses⟩ := recv_eq_some.mp hrecv
  refine ⟨(s.step .recv).step (.respond wrapper res), by rw [hrespond], ?_⟩
  refine ⟨htaken.step howned, ?_, ?_, ?_, ?_, fun hopen hin => ?_⟩
  · rw [hrespond]
  · rw [hrespond]
  · rw [hrespond, ← h.asked]
  · rw [hrespond, List.map_append, h.answered]
    rfl
  · rw [hrespond] at hin
    rcases List.mem_or_eq_of_mem_set hin with hold | hnew
    · rw [hresponses, ← h.pair] at hold
      exact h.running hopen hold
    · cases hnew

theorem Serves.wakes (h : Serves n invoked s) (hwakes : n.Wakes event n₁) :
    ∃ s', Serves n₁ invoked s' ∧ (s'.answers = s.answers ∨
      ∃ w state, n.state.recv = some (w, state) ∧ event = .request w.request ∧
        s'.answers = s.answers ++ [(w, n.app.handleRequest w.request)]) := by
  cases hwakes with
  | advertiseTick => exact ⟨s, h, Or.inl rfl⟩
  | commitTick => exact ⟨s, h, Or.inl rfl⟩
  | @request wrapper state hrecv =>
      obtain ⟨s', hanswers, hserves⟩ := h.answer hrecv (n.app.handleRequest wrapper.request)
      exact ⟨s', hserves, Or.inr ⟨wrapper, state, hrecv, rfl, hanswers⟩⟩
  | inbox hrecv =>
      refine ⟨s, h.congr rfl fun hopen => ?_, Or.inl rfl⟩
      exact (Channel.recv_eq_some.mp hrecv).2 ▸ hopen

theorem Serves.send (h : Serves n invoked s) (out : List (Outbox PeerId)) :
    ∃ s', Serves (n.send out) invoked s' ∧ s'.answers = s.answers := by
  rcases send_cases n out with hsend | ⟨-, hsend⟩
  · rw [hsend]
    exact ⟨s, h.congr rfl id, rfl⟩
  · rw [hsend]
    exact ⟨_, h.stopApp, rfl⟩

/-! ## Runs -/

variable [LinearOrder PeerId] {sha256 : Sha256} {json : GossipJson PeerId Bytes}
  {n₀ m : Node PeerId} {labels before : List (Label PeerId Bytes ResponseChannel)}
  {label : Label PeerId Bytes ResponseChannel} {out : List (Outbox PeerId)}
  {actions : List (P2P.Action PeerId Bytes ResponseChannel)}

/-- A step answers at most one request, the one that it takes, with the state that
it finds. -/
theorem Serves.step (h : Serves n invoked s) (hstep : Step sha256 json n label n' out actions) :
    ∃ s', Serves n' (invoked ++ label.invoked.toList) s' ∧ (s'.answers = s.answers ∨
      ∃ w state, n.state.recv = some (w, state) ∧ label = .app (.request w.request) ∧
        s'.answers = s.answers ++ [(w, n.app.handleRequest w.request)]) := by
  cases hstep with
  | invoke hreq =>
      refine ⟨_, h.invoke hreq, Or.inl ?_⟩
      rw [Session.step_answers]
      exact List.append_nil _
  | @handle n₁ event a out hopen hwakes happ =>
      obtain ⟨s₁, hs₁, hanswers⟩ := h.wakes hwakes
      have hs₁ : Serves { n₁ with app := a } invoked s₁ := hs₁.congr rfl id
      obtain ⟨s₂, hs₂, hkept⟩ := hs₁.send out
      rw [hkept.symm] at hanswers
      refine ⟨s₂, (List.append_nil invoked).symm ▸ hs₂, hanswers.imp_right ?_⟩
      rintro ⟨w, state, hrecv, rfl, heq⟩
      exact ⟨w, state, hrecv, rfl, heq⟩
  | @panic n₁ event reason hopen hwakes hpanic =>
      obtain ⟨s₁, hs₁, hanswers⟩ := h.wakes hwakes
      obtain ⟨s₂, hs₂, hkept⟩ := hs₁.send (n.app.sentFirst event)
      rw [hkept.symm] at hanswers
      refine ⟨s₂.step .dropHandler, (List.append_nil invoked).symm ▸ hs₂.stopApp,
        hanswers.imp_right ?_⟩
      rintro ⟨w, state, hrecv, rfl, heq⟩
      exact ⟨w, state, hrecv, rfl, heq⟩
  | shutdown hopen =>
      have hs : Serves { n with shutdown := true } invoked s := h.congr rfl id
      exact ⟨s.step .dropHandler, (List.append_nil invoked).symm ▸ hs.stopApp, Or.inl rfl⟩
  | outbox hopen hrecv hround =>
      have hperformed := roundP2P_performed hround
      have hstate := congrArg Node.state hperformed.frame
      refine ⟨s, (List.append_nil invoked).symm ▸ h.congr hstate fun hopen => ?_, Or.inl rfl⟩
      rwa [hperformed.inbox, Channel.push_isOpen] at hopen
  | swarm hopen hround =>
      have hperformed := roundP2P_performed hround
      have hstate := congrArg Node.state hperformed.frame
      refine ⟨s, (List.append_nil invoked).symm ▸ h.congr hstate fun hopen => ?_, Or.inl rfl⟩
      rwa [hperformed.inbox, Channel.push_isOpen] at hopen

/-- A run goes through `m` after the labels `before`. -/
def Visits (sha256 : Sha256) (json : GossipJson PeerId Bytes) (n₀ : Node PeerId)
    (labels : List (Label PeerId Bytes ResponseChannel)) (n : Node PeerId)
    (before : List (Label PeerId Bytes ResponseChannel)) (m : Node PeerId) : Prop :=
  ∃ after, labels = before ++ after ∧ (∃ out actions, Runs sha256 json n₀ before m out actions) ∧
    ∃ out actions, Runs sha256 json m after n out actions

theorem Visits.here (h : Runs sha256 json n₀ labels n out actions) :
    Visits sha256 json n₀ labels n labels n :=
  ⟨[], (List.append_nil _).symm, ⟨_, _, h⟩, _, _, .refl⟩

theorem Visits.tail (h : Visits sha256 json n₀ labels n before m)
    (hstep : Step sha256 json n label n' out actions) :
    Visits sha256 json n₀ (labels ++ [label]) n' before m := by
  obtain ⟨after, rfl, hbefore, out', actions', hafter⟩ := h
  exact ⟨after ++ [label], List.append_assoc _ _ _, hbefore, _, _, hafter.tail hstep⟩

/-- The moment of an answer: a state of the run, after the request, in which this
request is the next that the application takes.  The step that follows takes it. -/
structure AnsweredAt (sha256 : Sha256) (json : GossipJson PeerId Bytes) (n₀ : Node PeerId)
    (labels : List (Label PeerId Bytes ResponseChannel)) (n : Node PeerId)
    (answer : RequestWrapper Request × Response)
    (before : List (Label PeerId Bytes ResponseChannel)) (m : Node PeerId) : Prop where
  visits : Visits sha256 json n₀ labels n before m
  asked : answer.1.response < (before.filterMap Label.invoked).length
  waits : ∃ state, m.state.recv = some (answer.1, state)
  taken : before ++ [.app (.request answer.1.request)] <+: labels
  answer : answer.2 = m.app.handleRequest answer.1.request

theorem Runs.serves
    (h : Runs sha256 json (createStack peerId params) labels n out actions) :
    ∃ s, Serves n (labels.filterMap Label.invoked) s ∧ ∀ answer ∈ s.answers, ∃ before m,
      AnsweredAt sha256 json (createStack peerId params) labels n answer before m := by
  induction h with
  | refl => exact ⟨_, .start, by simp [Session.start]⟩
  | @tail labels n n' out out' actions actions' label hruns hstep ih =>
      obtain ⟨s, hs, hanswers⟩ := ih
      obtain ⟨s', hs', hnew⟩ := hs.step hstep
      rw [filterMap_invoked]
      refine ⟨s', hs', ?_⟩
      have hold : ∀ answer ∈ s.answers, ∃ before m, AnsweredAt sha256 json
          (createStack peerId params) (labels ++ [label]) n' answer before m := by
        intro answer hin
        obtain ⟨before, m, hat⟩ := hanswers answer hin
        exact ⟨before, m, { hat with
          visits := hat.visits.tail hstep
          taken := hat.taken.trans (List.prefix_append _ _) }⟩
      rcases hnew with heq | ⟨w, state, hrecv, rfl, heq⟩
      · exact heq ▸ hold
      · rw [heq]
        intro answer hin
        rcases List.mem_append.mp hin with hin | hin
        · exact hold answer hin
        · rw [List.mem_singleton.mp hin]
          have hlt := (List.getElem?_eq_some_iff.mp
            (hs.linked.asked w (List.mem_append_left _ (hs.next_mem hrecv)))).1
          rw [hs.asked] at hlt
          exact ⟨labels, n, (Visits.here hruns).tail hstep, hlt, ⟨state, hrecv⟩,
            List.prefix_refl _, rfl⟩

/-- A request of the owner waits, or it was answered with the state that the
application had in the step that took it, or the application has ended. -/
theorem state_requests (h : Runs sha256 json (createStack peerId params) labels n out actions)
    {future : Nat} {req : Request} (hreq : (labels.filterMap Label.invoked)[future]? = some req) :
    (n.state.poll future = .ok none ↔ ⟨req, future⟩ ∈ n.state.channel.queue) ∧
    (∀ res, n.state.poll future = .ok (some res) → ∃ before m,
      AnsweredAt sha256 json (createStack peerId params) labels n (⟨req, future⟩, res) before m) ∧
    (∀ reason, n.state.poll future = .panic reason → n.inbox.isOpen = false) := by
  obtain ⟨s, hs, hanswers⟩ := h.serves
  rw [← hs.asked] at hreq
  rw [← hs.pair]
  refine ⟨?_, ?_, ?_⟩
  · rw [hs.linked.poll_none_iff hreq, hs.held]
    simp
  · intro res hres
    exact hanswers _ ((hs.linked.poll_some_iff hreq).mp hres)
  · intro reason hpanic
    by_contra hrunning
    exact hs.running (by simpa using hrunning) (canceled_of_poll hpanic)

/-! ## What the owner sees over time -/

/-- Each offset is still there or has moved on. -/
def OffsetsLe (offsets offsets' : HashMap Nat Nat) : Prop :=
  ∀ r o, offsets.lookup r = some o → ∃ o', offsets'.lookup r = some o' ∧ o ≤ o'

theorem OffsetsLe.refl (offsets : HashMap Nat Nat) : OffsetsLe offsets offsets :=
  fun _ o ho => ⟨o, ho, le_rfl⟩

theorem OffsetsLe.trans {offsets offsets' offsets'' : HashMap Nat Nat}
    (h : OffsetsLe offsets offsets') (h' : OffsetsLe offsets' offsets'') :
    OffsetsLe offsets offsets'' := by
  intro r o ho
  obtain ⟨o', ho', hle⟩ := h r o ho
  obtain ⟨o'', ho'', hle'⟩ := h' r o' ho'
  exact ⟨o'', ho'', hle.trans hle'⟩

/-- The own offsets that a response shows. -/
def seenOffsets : Response → HashMap Nat Nat
  | .state offsets => offsets.selfOffsets

theorem Runs.storeExact (h : Runs sha256 json (createStack peerId params) labels n out actions)
    (hlast : NoLast (heldIds n.app.transactions)) :
    StoreExact n.app.transactions n.app.selfOffsets := by
  obtain ⟨events, hruns, -⟩ := h.app_runs
  exact hruns.storeExact (hruns.heldIds_eq ▸ hlast)

/-- What the owner has seen so far is in order, and the node is not behind it. -/
theorem Runs.seen (h : Runs sha256 json (createStack peerId params) labels n out actions)
    (hlast : NoLast (heldIds n.app.transactions)) :
    ∃ s, Serves n (labels.filterMap Label.invoked) s ∧
      (∀ a ∈ s.answers, OffsetsLe (seenOffsets a.2) n.app.selfOffsets) ∧
      ∀ a ∈ s.answers, ∀ b ∈ s.answers, a.1.response < b.1.response →
        OffsetsLe (seenOffsets a.2) (seenOffsets b.2) := by
  induction h with
  | refl => exact ⟨_, .start, by simp [Session.start], by simp [Session.start]⟩
  | @tail labels n n' out out' actions actions' label hruns hstep ih =>
      have hsub := hstep.heldIds_subset
      obtain ⟨s, hs, hseen, hordered⟩ := ih (hlast.mono hsub)
      obtain ⟨s', hs', hnew⟩ := hs.step hstep
      have hle : OffsetsLe n.app.selfOffsets n'.app.selfOffsets := by
        intro r o ho
        exact StoreExact.mono (hruns.storeExact (hlast.mono hsub))
          ((hruns.tail hstep).storeExact hlast) hsub ho
      rw [filterMap_invoked]
      refine ⟨s', hs', ?_⟩
      rcases hnew with heq | ⟨w, state, hrecv, -, heq⟩
      · rw [heq]
        exact ⟨fun a ha => (hseen a ha).trans hle, hordered⟩
      · rw [heq]
        have hlater : ∀ a ∈ s.answers, a.1.response < w.response := by
          intro a ha
          exact hs.linked.received_lt (hs.answered ▸ List.mem_map_of_mem ha) (hs.next_mem hrecv)
        constructor
        · intro a ha
          rcases List.mem_append.mp ha with ha | ha
          · exact (hseen a ha).trans hle
          · rw [List.mem_singleton.mp ha]
            exact hle
        · intro a ha b hb hlt
          rcases List.mem_append.mp hb with hb | hb
          · rcases List.mem_append.mp ha with ha | ha
            · exact hordered a ha b hb hlt
            · rw [List.mem_singleton.mp ha] at hlt
              exact absurd (hlater b hb) (Nat.lt_asymm hlt)
          · rw [List.mem_singleton.mp hb] at hlt ⊢
            rcases List.mem_append.mp ha with ha | ha
            · exact hseen a ha
            · rw [List.mem_singleton.mp ha] at hlt
              exact absurd hlt (lt_irrefl _)

/-- While the node has completed no range, a later request is answered with offsets
that have not gone back, whenever the owner looks at the two answers. -/
theorem snapshots_grow (h : Runs sha256 json (createStack peerId params) labels n out actions)
    (hlast : NoLast (heldIds n.app.transactions)) {earlier later : Nat} (hlt : earlier < later)
    {seen seen' : CurrentOffsets}
    (hearlier : n.state.poll earlier = .ok (some (.state seen)))
    (hlater : n.state.poll later = .ok (some (.state seen'))) :
    OffsetsLe seen.selfOffsets seen'.selfOffsets := by
  obtain ⟨s, hs, -, hordered⟩ := h.seen hlast
  rw [← hs.pair] at hearlier hlater
  obtain ⟨w, hw, rfl⟩ := (hs.linked.answered _ _).mp (poll_ready.mp hearlier)
  obtain ⟨w', hw', rfl⟩ := (hs.linked.answered _ _).mp (poll_ready.mp hlater)
  exact hordered _ hw _ hw' hlt

/-! ## A run of a node

The owner asks for the state, the node gets a transaction, and the owner asks
again. -/

/-- What the owner sees of an application. -/
def seenNow (app : App Nat LogLineriazer) : Oneshot Response :=
  .sent (app.handleRequest .getState)

def asking : List (Label Nat (GossipMessage Nat) Unit) :=
  [.invoke .getState, .app (.request .getState)]

theorem asking_runs (sha256 : Sha256) (app : App Nat LogLineriazer)
    (responses : List (Oneshot Response)) :
    Runs sha256 P2P.plainJson (idle app ⟨.new, responses⟩) asking
      (idle app ⟨.new, responses ++ [seenNow app]⟩) [] [] := by
  let waiting : Node Nat :=
    idle app ⟨.push .new [⟨.getState, responses.length⟩], responses ++ [.pending]⟩
  have hinvoke : Step sha256 P2P.plainJson (idle app ⟨.new, responses⟩) asking[0] waiting []
      ([] : List (P2P.Action Nat _ _)) :=
    .invoke rfl
  have hset : (responses ++ [Oneshot.pending]).set responses.length (seenNow app) =
      responses ++ [seenNow app] := by
    simp
  have hwakes : waiting.Wakes (.request .getState)
      (idle app ⟨.new, responses ++ [seenNow app]⟩) := by
    have hrecv : waiting.state.recv =
        some (⟨.getState, responses.length⟩, ⟨.new, responses ++ [.pending]⟩) := rfl
    rw [← hset]
    exact .request hrecv
  have hanswer : Step sha256 P2P.plainJson waiting asking[1]
      (idle app ⟨.new, responses ++ [seenNow app]⟩) [] ([] : List (P2P.Action Nat _ _)) :=
    @Step.handle _ _ _ _ _ _ waiting _ _ app [] rfl hwakes .request
  exact (Runs.refl.tail hinvoke).tail hanswer

/-- The owner asks before and after the transaction. -/
theorem watching_runs (sha256 : Sha256) :
    Runs sha256 P2P.plainJson (createStack 1 Params.default) (asking ++ storing ++ asking)
      (idle System.holder ⟨.new, [seenNow (App.new 1 Params.default), seenNow System.holder]⟩) []
      [.toApp (.newTransaction System.firstTx), .gmResponse () .acknowledged] :=
  ((asking_runs sha256 _ []).append (storing_runs sha256 _)).append
    (asking_runs sha256 _ [seenNow (App.new 1 Params.default)])

theorem state_requests_watching : ∃ before m,
    AnsweredAt (fun _ => Vector.replicate 32 0) P2P.plainJson (createStack 1 Params.default)
      (asking ++ storing ++ asking)
      (idle System.holder ⟨.new, [seenNow (App.new 1 Params.default), seenNow System.holder]⟩)
      (⟨.getState, 1⟩, System.holder.handleRequest .getState) before m :=
  (state_requests (watching_runs _) rfl).2.1 _ rfl

theorem snapshots_grow_watching : OffsetsLe (App.new 1 Params.default).selfOffsets
    System.holder.selfOffsets := by
  have hlast : NoLast (heldIds System.holder.transactions) := by
    intro id hid
    have hone : id ∈ (∅ : HashMap Nat Transaction).insert 0 System.firstTx := hid
    rcases Finmap.mem_insert.mp hone with rfl | hnone
    · rw [singleBlobSize]
      decide
    · exact absurd hnone Finmap.notMem_empty
  exact snapshots_grow (watching_runs fun _ => Vector.replicate 32 0) hlast Nat.zero_lt_one rfl rfl

end Node

end Maroon
