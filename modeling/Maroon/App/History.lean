import Maroon.App.Panics
import Maroon.Lib.HashChain

/-!
# The history of a node

The epochs of a node are a hash chain over what was commited, and its log and
its commited offsets can be computed from them (`Chained`).  A node adds an
epoch at each commit tick, also when there is nothing to commit, and it never
changes what it has written (`history_append_only`).  So the hash of the last
epoch stands for the whole history, the order of the log included
(`last_hash_determines_history`).
-/

namespace Maroon

open Lib Outcome

/-! ## Chains of epochs -/

namespace Epoch

/-- The epochs that are made of these increments, one after the other. -/
def chain (sha256 : Sha256) (prevHash : Option Hash) :
    List (List U64BlobIdClosedInterval) → List Epoch
  | [] => []
  | increments :: rest =>
      Epoch.new sha256 increments prevHash ::
        chain sha256 (some (sha256 (hashInput increments prevHash))) rest

theorem chain_snoc (sha256 : Sha256) (prevHash : Option Hash)
    (l : List (List U64BlobIdClosedInterval)) (increments : List U64BlobIdClosedInterval) :
    chain sha256 prevHash (l ++ [increments]) = chain sha256 prevHash l ++
      [Epoch.new sha256 increments (HashChain.head sha256 hashInput prevHash l)] := by
  induction l generalizing prevHash with
  | nil => rfl
  | cons first l ih => exact congrArg (Epoch.new sha256 first prevHash :: ·) (ih _)

/-- The hash of the last epoch is the head of the chain. -/
theorem chain_getLast (sha256 : Sha256) (l : List (List U64BlobIdClosedInterval)) :
    (chain sha256 none l).getLast?.map Epoch.hash = HashChain.head sha256 hashInput none l := by
  rcases List.eq_nil_or_concat l with rfl | ⟨before, increments, rfl⟩
  · rfl
  · rw [List.concat_eq_append, chain_snoc, HashChain.head_snoc, List.getLast?_append]
    rfl

end Epoch

/-- A commit tick. -/
def Event.isCommitTick {PeerId : Type} : Event PeerId → Bool
  | .commitTick => true
  | _ => false

namespace App

section Chain

variable {PeerId : Type}

/-- What a node has commited, epoch by epoch. -/
def history (a : App PeerId LogLineriazer) : List (List U64BlobIdClosedInterval) :=
  a.epochs.map Epoch.increments

/-- What the epochs of a node were hashed from. -/
def hashed (sha256 : Sha256) (a : App PeerId LogLineriazer) : List (List UInt8) :=
  HashChain.inputs sha256 Epoch.hashInput none a.history

/-- All that a node has commited is what its history says. -/
structure Chained (sha256 : Sha256) (a : App PeerId LogLineriazer) : Prop where
  epochs : a.epochs = Epoch.chain sha256 none a.history
  log : a.linearizer.sequence = a.history.flatMap LogLineriazer.elementsOf
  replayed : a.history.flatten.foldlM commitInterval ∅ = .ok a.commitedOffsets
  valid : ∀ increments ∈ a.history, ∀ i ∈ increments, Epoch.ValidInterval i

variable {sha256 : Sha256} {a a' : App PeerId LogLineriazer}

theorem Chained.new {peerId : PeerId} {params : Params} :
    Chained sha256 (App.new peerId params) where
  epochs := rfl
  log := rfl
  replayed := rfl
  valid := by simp [history, App.new]

theorem Chained.prevHash_eq (h : Chained sha256 a) :
    a.prevHash = HashChain.head sha256 Epoch.hashInput none a.history := by
  rw [prevHash, h.epochs, Epoch.chain_getLast]

theorem Commit.history_eq {order : List (Nat × Nat)} {increments : List U64BlobIdClosedInterval}
    (h : Commit sha256 order increments a a') : a'.history = a.history ++ [increments] := by
  rw [history, h.frame, List.map_append]
  rfl

theorem Chained.commit {order : List (Nat × Nat)} {increments : List U64BlobIdClosedInterval}
    (hc : Chained sha256 a) (h : Commit sha256 order increments a a') : Chained sha256 a' where
  epochs := by
    rw [h.history_eq, Epoch.chain_snoc, ← hc.prevHash_eq, ← hc.epochs, h.frame]
  log := by
    have hle : ∀ i ∈ increments, i.left ≤ i.right := by
      obtain ⟨-, rfl⟩ := calculateEpochIncrements_ok.mp h.calculated
      exact increments_valid _ _
    obtain ⟨fuel, hlin⟩ := h.linearizer
    rw [LogLineriazer.newEpoch_ok hle hlin, hc.log, h.history_eq, List.flatMap_append,
      List.flatMap_singleton, Epoch.new_increments]
  replayed := by
    rw [h.history_eq, List.flatten_append, List.foldlM_append, hc.replayed, ok_bind]
    simpa using h.commitedOffsets
  valid := by
    rw [h.history_eq]
    intro increments' hin i hi
    rcases List.mem_append.mp hin with hold | hnew
    · exact hc.valid increments' hold i hi
    · rw [List.mem_singleton.mp hnew] at hi
      have hacc := foldlM_commitInterval_accepted h.commitedOffsets i hi
      obtain ⟨-, rfl⟩ := calculateEpochIncrements_ok.mp h.calculated
      exact ⟨increments_valid _ _ i hi, (Nat.lt_succ_self _).trans hacc.lt⟩

/-- What was commited is still there in a later state. -/
structure Extends (a a' : App PeerId LogLineriazer) : Prop where
  epochs : a.epochs <+: a'.epochs
  log : a.linearizer.sequence <+: a'.linearizer.sequence
  commited : ∀ {r c}, a.commitedOffsets.lookup r = some c →
    ∃ c', a'.commitedOffsets.lookup r = some c' ∧ c ≤ c'

theorem Extends.refl (a : App PeerId LogLineriazer) : a.Extends a where
  epochs := List.prefix_refl _
  log := List.prefix_refl _
  commited hc := ⟨_, hc, le_rfl⟩

theorem Extends.trans {b : App PeerId LogLineriazer} (h : a.Extends b) (h' : b.Extends a') :
    a.Extends a' where
  epochs := h.epochs.trans h'.epochs
  log := h.log.trans h'.log
  commited := by
    intro r c hc
    obtain ⟨c₁, hc₁, hle₁⟩ := h.commited hc
    obtain ⟨c₂, hc₂, hle₂⟩ := h'.commited hc₁
    exact ⟨c₂, hc₂, hle₁.trans hle₂⟩

end Chain

variable {PeerId : Type} [LinearOrder PeerId] {sha256 : Sha256} {a a' : App PeerId LogLineriazer}
  {event : Event PeerId} {out : List (Outbox PeerId)} {peerId : PeerId} {params : Params}
  {events events' : List (Event PeerId)}

theorem Step.chained (h : Step sha256 a event a' out) (hc : Chained sha256 a) :
    Chained sha256 a' := by
  by_cases htick : event = .commitTick
  · subst htick
    obtain ⟨order, increments, -, hcommit⟩ := h.commit_tick
    exact hc.commit hcommit
  · obtain ⟨hcommited, hepochs, hlinearizer⟩ := h.commited_eq htick
    have hhistory : a'.history = a.history := by
      rw [history, hepochs]
      rfl
    refine ⟨?_, ?_, ?_, ?_⟩
    · rw [hhistory, hepochs]
      exact hc.epochs
    · rw [hhistory, hlinearizer]
      exact hc.log
    · rw [hhistory, hcommited]
      exact hc.replayed
    · rw [hhistory]
      exact hc.valid

theorem Runs.chained (h : Runs sha256 (App.new peerId params) events a) : Chained sha256 a :=
  h.invariant (fun _ => True) (Chained sha256) (fun _ hc hstep => hstep.chained hc) (by simp)
    .new

/-! ## The last hash stands for the history -/

/-- Two nodes with the same number of epochs and the same last hash have the
same epochs, commited offsets and log, as long as SHA-256 does not collide on
what they have hashed. -/
theorem last_hash_determines_history {peerId' : PeerId} {params' : Params}
    (h : Runs sha256 (App.new peerId params) events a)
    (h' : Runs sha256 (App.new peerId' params') events' a')
    (hlen : a.epochs.length = a'.epochs.length) (hhash : a.prevHash = a'.prevHash)
    (hno : NoCollision sha256 (a.hashed sha256) (a'.hashed sha256)) :
    a.epochs = a'.epochs ∧ a.commitedOffsets = a'.commitedOffsets ∧
      a.linearizer.sequence = a'.linearizer.sequence := by
  have hc := h.chained
  have hc' := h'.chained
  have hhistory : a.history = a'.history := by
    refine (HashChain.eq_of_head_eq (fun hv hv' => Epoch.hashInput_inj hv hv') ?_ rfl
      hc.valid hc'.valid hno ?_).2
    · rw [history, history, List.length_map, List.length_map, hlen]
    · rw [← hc.prevHash_eq, ← hc'.prevHash_eq, hhash]
  refine ⟨?_, ?_, ?_⟩
  · rw [hc.epochs, hc'.epochs, hhistory]
  · exact ok.inj (hc.replayed.symm.trans (hhistory ▸ hc'.replayed))
  · rw [hc.log, hc'.log, hhistory]

/-- A node that has heard of offset 5 from peers 1 and 2 commits the ids up to it. -/
theorem heard_commits (sha256 : Sha256) (p : Nat) {offsets : HashMap Nat (HashMap Nat Nat)}
    (hoffsets : EnumeratesNested [(0, [(1, 5), (2, 5)])] offsets) :
    ∃ a : App Nat LogLineriazer,
      Runs sha256 { App.new p Params.default with offsets } [.advertiseTick, .commitTick] a ∧
        a.epochs = [Epoch.new sha256 [⟨0, 5⟩] none] ∧
        a.linearizer.sequence = [0, 1, 2, 3, 4, 5] := by
  have htick : Step sha256 ({ App.new p Params.default with offsets } : App Nat LogLineriazer)
      .advertiseTick { App.new p Params.default with
        offsets, consensusOffset := (∅ : HashMap Nat Nat).insert 0 5 }
      [.state { offsets := ∅ }, .requestMissingTxs 2 [⟨0, 5⟩]] :=
    @Step.advertise _ _ _ _ _ _ _ _ _ _ [(2, [⟨0, 5⟩])] 7 hoffsets rfl hoffsets rfl
      (.singleton 2 _)
  have hcommit : Step sha256 ({ App.new p Params.default with
      offsets, consensusOffset := (∅ : HashMap Nat Nat).insert 0 5 } : App Nat LogLineriazer)
      .commitTick _ [] :=
    @Step.commit _ _ _ _ _ _ _ [(0, 5)] 7 (.singleton 0 5) rfl
  exact ⟨_, (Runs.single htick).tail hcommit, rfl, rfl⟩

/-- Nodes 0 and 3 hear of the same offsets, one from peer 1 first, the other from
peer 2 first. -/
theorem last_hash_determines_history_heard : ∃ a a' : App Nat LogLineriazer,
    a.linearizer.sequence = [0, 1, 2, 3, 4, 5] ∧
      a.linearizer.sequence = a'.linearizer.sequence ∧
      a.commitedOffsets = a'.commitedOffsets := by
  let sha256 : Sha256 := fun _ => Vector.replicate 32 0
  obtain ⟨a, ha, hepochs, hlog⟩ := heard_commits sha256 0 (heard_offsets 5)
  have hpeers := (Enumerates.singleton 2 5).insert (by simp [Finmap.notMem_empty] : 1 ∉ _) 5
  obtain ⟨a', ha', hepochs', -⟩ := heard_commits sha256 3
    (.insert .empty Finmap.notMem_empty hpeers)
  have hrun := (heard_runs sha256 5).append ha
  have hrun' := ((Runs.single (heard_step sha256 (App.new 3 Params.default) 2 5)).tail
    (heard_step sha256 _ 1 5)).append ha'
  have hno : NoCollision sha256 (a.hashed sha256) (a'.hashed sha256) := by
    rw [hashed, hashed, history, history, hepochs, hepochs']
    intro b hb b' hb' _
    exact (List.mem_singleton.mp hb).trans (List.mem_singleton.mp hb').symm
  obtain ⟨-, hcommited, hsequence⟩ := last_hash_determines_history hrun hrun'
    (by rw [hepochs, hepochs']) (by rw [prevHash, prevHash, hepochs, hepochs']) hno
  exact ⟨a, a', hlog, hsequence, hcommited⟩

/-! ## Nothing is rewritten -/

theorem Commit.extends {order : List (Nat × Nat)} {increments : List U64BlobIdClosedInterval}
    (h : Commit sha256 order increments a a') (hv : a.Valid)
    (horder : Enumerates order a.consensusOffset) : a.Extends a' where
  epochs := by
    rw [h.frame]
    exact List.prefix_append _ _
  log := by
    have hle : ∀ i ∈ increments, i.left ≤ i.right := by
      obtain ⟨-, rfl⟩ := calculateEpochIncrements_ok.mp h.calculated
      exact increments_valid _ _
    obtain ⟨fuel, hlin⟩ := h.linearizer
    rw [LogLineriazer.newEpoch_ok hle hlin]
    exact List.prefix_append _ _
  commited := by
    intro r c hc
    cases h.rangeCommit hv horder r with
    | advanced o _ hlt hcommited _ _ =>
        rw [nextOffset_some hc] at hlt
        exact ⟨o, hcommited, by omega⟩
    | kept _ hcommited _ _ => exact ⟨c, hcommited.trans hc, le_rfl⟩

theorem Step.extends (h : Step sha256 a event a' out) (hv : a.Valid) : a.Extends a' := by
  by_cases htick : event = .commitTick
  · subst htick
    obtain ⟨order, increments, horder, hcommit⟩ := h.commit_tick
    exact hcommit.extends hv horder
  · obtain ⟨hcommited, hepochs, hlinearizer⟩ := h.commited_eq htick
    refine ⟨?_, ?_, fun hc => ⟨_, hcommited ▸ hc, le_rfl⟩⟩
    · rw [hepochs]
    · rw [hlinearizer]

/-- A step adds an epoch exactly at a commit tick. -/
theorem Step.epochs_length (h : Step sha256 a event a' out) :
    a'.epochs.length = a.epochs.length + [event].countP Event.isCommitTick := by
  cases event with
  | commitTick =>
      obtain ⟨order, increments, -, hcommit⟩ := h.commit_tick
      rw [hcommit.frame, List.length_append]
      rfl
  | _ =>
      rw [(h.commited_eq (by simp)).2.1]
      rfl

theorem Runs.epochs_length (h : Runs sha256 a events a') :
    a'.epochs.length = a.epochs.length + events.countP Event.isCommitTick := by
  induction h with
  | refl => rfl
  | tail _ hstep ih => rw [hstep.epochs_length, ih, List.countP_append, Nat.add_assoc]

theorem Runs.extends (h : Runs sha256 a events a') (hv : a.Valid)
    (hev : ∀ event ∈ events, event.OffsetsAdvertisable) : a.Extends a' :=
  (h.invariant Event.OffsetsAdvertisable (fun b => b.Valid ∧ a.Extends b)
    (fun hok hI hstep => ⟨hstep.valid hI.1 hok, hI.2.trans (hstep.extends hI.1)⟩) hev
    ⟨hv, .refl a⟩).2

/-- A node never changes what it has commited: it appends to its epochs and to
its log, its commited offsets never go back, and it adds one epoch for each
commit tick. -/
theorem history_append_only (h : Runs sha256 (App.new peerId params) events a)
    (hev : ∀ event ∈ events, event.OffsetsAdvertisable) (h' : Runs sha256 a events' a')
    (hev' : ∀ event ∈ events', event.OffsetsAdvertisable) :
    a.Extends a' ∧
      a'.epochs.length = a.epochs.length + events'.countP Event.isCommitTick :=
  ⟨h'.extends (h.tiled hev).1 hev', h'.epochs_length⟩

/-- A node hears of offsets 0 to 5, and commits them. -/
theorem history_append_only_heard : ∃ a a' : App Nat LogLineriazer,
    a.consensusOffset.lookup 0 = some 5 ∧ a.Extends a' ∧ a'.epochs.length = 1 := by
  let sha256 : Sha256 := fun _ => Vector.replicate 32 0
  obtain ⟨hrun, hev⟩ := heard_confirms sha256 5 7 ⟨by decide, by decide⟩ rfl rfl
  have hcommit : Step sha256
      { heardApp 5 with consensusOffset := (∅ : HashMap Nat Nat).insert 0 5 } .commitTick _ [] :=
    @Step.commit _ _ _ _ _ _ _ [(0, 5)] 7 (.singleton 0 5) rfl
  obtain ⟨hextends, hlen⟩ :=
    history_append_only hrun hev (.single hcommit) (by simp [Event.OffsetsAdvertisable])
  exact ⟨_, _, rfl, hextends, hlen⟩

end App

end Maroon
