import Sprax.Strides

/-!
# A quorum of nodes decides

Over all seats of a round: every vote that a seat has cast is in the channel or in the tables
of every seat that is still voting, and a seat stops voting only when a quorum of the power has
precommitted. The drivers therefore come to rest only when all of them have committed the block
that they had accepted, and the ledger of each then holds it with a certificate. They come to
rest after a number of steps that the number of seats and of votes from outside bounds.
-/
namespace Sprax
open Std FiniteMap Runs

namespace Assembly
variable {P : Primitives} {ι : Type}

/-- The seat acts and keeps the rest of its channel, and what it casts reaches the others. -/
structure Passes (w w' : Assembly ι) (i : ι) (n' : Node) (channel cast : List Vote) : Prop where
  self : w' i = ⟨n', channel⟩
  other : ∀ j, j ≠ i → w' j = { w j with channel := (w j).channel ++ cast }

theorem passes_acted [DecidableEq ι] (w : Assembly ι) (i : ι) (ev : Event) (channel : List Vote) :
    Passes w (w.acted P i ev channel) i ((w i).node.next P ev) channel
      (castVotes ((w i).node.step P ev).2) :=
  ⟨if_pos rfl, fun _ hj => if_neg hj⟩

/-- What arrives goes into one channel; the nodes stay as they are. -/
theorem step_arrive [DecidableEq ι] (w : Assembly ι) (i j : ι) (v : Vote) :
    w.step P (.arrive i v) j = ⟨(w j).node, (w j).channel ++ if j = i then [v] else []⟩ := by
  by_cases hj : j = i
  · subst hj
    simp [step]
  · simp [step, hj]

/-- What holds of the seat that acted and of the others holds of all. -/
theorem Passes.forall {w w' : Assembly ι} {i : ι} {n' : Node} {channel cast : List Vote}
    (hpass : Assembly.Passes w w' i n' channel cast) {Q : ι → Seat → Prop}
    (hself : Q i ⟨n', channel⟩) (hother : ∀ j, j ≠ i →
      Q j { w j with channel := (w j).channel ++ cast }) (j : ι) : Q j (w' j) := by
  by_cases hji : j = i
  · subst hji
    rw [hpass.self]
    exact hself
  · rw [hpass.other j hji]
    exact hother j hji

end Assembly

theorem getElem?_of_prefix {α : Type} {xs ys : List α} (h : xs <+: ys) {k : ℕ} {a : α}
    (ha : xs[k]? = some a) : ys[k]? = some a := by
  obtain ⟨rest, rfl⟩ := h
  rw [List.getElem?_append_left (List.getElem?_eq_some_iff.mp ha).1, ha]

/-- Applying a block takes no block away. -/
theorem ChainLedger.prefix_applied {P : Primitives} (L : ChainLedger) (block : Block) :
    L.blocks <+: (L.applyBlock P block).1.blocks := by
  have houtcome := applyBlock_outcome (P := P) L block
  generalize L.applyBlock P block = result at houtcome
  cases houtcome with
  | ignored | refused | failed | mismatched => exact List.prefix_rfl
  | accepted => exact List.prefix_append _ _

namespace Round
variable {P : Primitives} {ι : Type} [Fintype ι] {R : Round P ι}

/-- A vote of a seat that has cast it, or one from outside. -/
def Known (R : Round P ι) (w : Assembly ι) (v : Vote) : Prop :=
  (∃ j, v = R.ballot v.voteType j ∧ R.HasCast (w j).node v.voteType) ∨ R.Outside v

/-- The seats that have precommitted. -/
def precommitters (w : Assembly ι) : Finset ι :=
  Finset.univ.filter (fun j => (w j).node.precommittedThisRound = true)

/-- What holds of all seats together. -/
structure Orderly (R : Round P ι) (w : Assembly ι) : Prop where
  ready : ∀ i, R.Ready i (w i).node
  filed : ∀ (i : ι) (t : VoteType) (k : ℕ × ℕ × Address) (v : Vote),
    ((w i).node.engine.votesOf t)[k]? = some v → R.Known w v
  sent : ∀ i, ∀ v ∈ (w i).channel, R.Known w v ∨ R.Stray v
  heard : ∀ i, R.Open (w i).node.phase → ∀ t j, R.HasCast (w j).node t →
    R.ballot t j ∈ (w i).channel ∨ ∃ u, ((w i).node.engine.votesOf t)[R.slot j]? = some u
  backed : ∀ i, R.Closed (w i).node.phase →
    R.valSet.quorumThreshold ≤ ∑ j ∈ precommitters w, R.valSet.powerOf (R.addr j)

theorem Known.mono {w w' : Assembly ι} (hcast : ∀ j t, R.HasCast (w j).node t →
    R.HasCast (w' j).node t) {v : Vote} (h : R.Known w v) : R.Known w' v := by
  rcases h with ⟨j, hv, hj⟩ | hout
  · exact .inl ⟨j, hv, hcast j _ hj⟩
  · exact .inr hout

theorem Known.lawful {w : Assembly ι} {v : Vote} (h : R.Known w v) : R.Lawful v :=
  h.imp (fun ⟨j, hv, _⟩ => ⟨j, hv⟩) id

/-- A known vote of a seat was cast by it. -/
theorem Known.hasCast {w : Assembly ι} {t : VoteType} {j : ι} (h : R.Known w (R.ballot t j)) :
    R.HasCast (w j).node t := by
  rcases h with ⟨l, hv, hl⟩ | hout
  · have haddr : R.addr j = R.addr l := congrArg Vote.validatorAddress hv
    rw [R.distinct haddr]
    exact hl
  · exact absurd rfl (hout.1 j)

theorem backed_mono {w w' : Assembly ι} (hcast : ∀ j t, R.HasCast (w j).node t →
    R.HasCast (w' j).node t) :
    ∑ j ∈ precommitters w, R.valSet.powerOf (R.addr j) ≤
      ∑ j ∈ precommitters w', R.valSet.powerOf (R.addr j) := by
  refine Finset.sum_le_sum_of_subset (fun j hj => ?_)
  rw [precommitters, Finset.mem_filter] at hj ⊢
  exact ⟨Finset.mem_univ j, hcast j .precommit hj.2⟩

section Acting
variable {w w' : Assembly ι} {i : ι} {n' : Node} {read channel cast : List Vote}

theorem Stride.passed_hasCast (hstride : R.Stride i (w i).node n' read cast)
    (hpass : Assembly.Passes w w' i n' channel cast) (j : ι) (t : VoteType)
    (hj : R.HasCast (w j).node t) : R.HasCast (w' j).node t := by
  revert hj
  refine hpass.forall (Q := fun j s => R.HasCast (w j).node t → R.HasCast s.node t) ?_ ?_ j
  · intro hi
    exact (hstride.hasCast t).mpr (.inl hi)
  · intro j _ hj
    exact hj

/-- What a seat has cast after the step it had cast before or casts now. -/
theorem Stride.passed_cases (hstride : R.Stride i (w i).node n' read cast)
    (hpass : Assembly.Passes w w' i n' channel cast) (j : ι) (t : VoteType)
    (hj : R.HasCast (w' j).node t) : R.HasCast (w j).node t ∨ R.ballot t j ∈ cast := by
  revert hj
  refine hpass.forall
    (Q := fun j s => R.HasCast s.node t → R.HasCast (w j).node t ∨ R.ballot t j ∈ cast) ?_ ?_ j
  · exact (hstride.hasCast t).mp
  · intro j _ hj
    exact .inl hj

theorem Stride.passed_known (hstride : R.Stride i (w i).node n' read cast)
    (hpass : Assembly.Passes w w' i n' channel cast) {v : Vote} (hv : v ∈ cast) : R.Known w' v := by
  obtain ⟨t, rfl⟩ := hstride.own v hv
  refine .inl ⟨i, rfl, ?_⟩
  rw [hpass.self]
  exact (hstride.hasCast t).mpr (.inr hv)

theorem Orderly.known_filed (h : R.Orderly w) (hpass : Assembly.Passes w w' i n' channel cast)
    (hstride : R.Stride i (w i).node n' read cast) (hread : ∀ v ∈ read, v ∈ (w i).channel)
    (t : VoteType) (k : ℕ × ℕ × Address) (v : Vote) (hv : (n'.engine.votesOf t)[k]? = some v) :
    R.Known w' v := by
  rcases hstride.origin t k v hv with hold | hmem
  · exact (h.filed i t k v hold).mono (hstride.passed_hasCast hpass)
  · rcases List.mem_append.mp hmem with hmem | hmem
    · rcases h.sent i v (hread v hmem) with hknown | hstray
      · exact hknown.mono (hstride.passed_hasCast hpass)
      · exact .inr (hstray.outside (hstride.ready.engine.lawful t k v hv).2.2)
    · exact hstride.passed_known hpass hmem

/-- A seat that goes on voting has stored what it took from its channel. -/
theorem Orderly.heard_self (h : R.Orderly w) (hpass : Assembly.Passes w w' i n' channel cast)
    (hstride : R.Stride i (w i).node n' read cast)
    (htaken : ∀ v ∈ (w i).channel, v ∈ channel ∨ v ∈ read) (hopen : R.Open n'.phase) (t : VoteType)
    (j : ι) (hj : R.HasCast (w' j).node t) :
    R.ballot t j ∈ channel ∨ ∃ u, (n'.engine.votesOf t)[R.slot j]? = some u := by
  have hbefore : R.Open (w i).node.phase :=
    (h.ready i).phase.resolve_right (fun hclosed => R.open_ne_closed hopen (hstride.closed hclosed))
  rcases hstride.passed_cases hpass j t hj with hj | hj
  · rcases h.heard i hbefore t j hj with hmem | ⟨u, hu⟩
    · rcases htaken _ hmem with hmem | hmem
      · exact .inl hmem
      · exact .inr (hstride.stored t j (List.mem_append_left _ hmem))
    · exact .inr ⟨u, hstride.grows t _ u hu⟩
  · exact .inr (hstride.stored t j (List.mem_append_right _ hj))

/-- The precommits that let a seat commit come from seats that have precommitted. -/
theorem Orderly.backed_self (h : R.Orderly w) (hpass : Assembly.Passes w w' i n' channel cast)
    (hstride : R.Stride i (w i).node n' read cast) (hread : ∀ v ∈ read, v ∈ (w i).channel)
    (hclosed : R.Closed n'.phase) :
    R.valSet.quorumThreshold ≤ ∑ j ∈ precommitters w', R.valSet.powerOf (R.addr j) := by
  rcases (h.ready i).phase with hopen | hbefore
  · refine (hstride.decided hopen hclosed).1.trans
      (R.support_le_sum (hstride.ready.engine.lawful .precommit) (fun j hj => ?_))
    have hcast := (h.known_filed hpass hstride hread .precommit _ _ hj).hasCast
    exact Finset.mem_filter.mpr ⟨Finset.mem_univ j, hcast⟩
  · exact (h.backed i hbefore).trans (backed_mono (hstride.passed_hasCast hpass))

theorem Orderly.passed (h : R.Orderly w) (hpass : Assembly.Passes w w' i n' channel cast)
    (hstride : R.Stride i (w i).node n' read cast) (hread : ∀ v ∈ read, v ∈ (w i).channel)
    (hleft : ∀ v ∈ channel, v ∈ (w i).channel) (htaken : ∀ v ∈ (w i).channel, v ∈ channel ∨
      v ∈ read) :
    R.Orderly w' where
  ready := hpass.forall (Q := fun j s => R.Ready j s.node) hstride.ready (fun j _ => h.ready j)
  filed := by
    refine hpass.forall (Q := fun _ s => ∀ (t : VoteType) (k : ℕ × ℕ × Address) (v : Vote),
      (s.node.engine.votesOf t)[k]? = some v → R.Known w' v) (h.known_filed hpass hstride hread) ?_
    intro j _ t k v hv
    exact (h.filed j t k v hv).mono (hstride.passed_hasCast hpass)
  sent := by
    have hmono : ∀ {v}, R.Known w v ∨ R.Stray v → R.Known w' v ∨ R.Stray v :=
      fun hv => hv.imp_left (Known.mono (hstride.passed_hasCast hpass))
    refine hpass.forall (Q := fun _ s => ∀ v ∈ s.channel, R.Known w' v ∨ R.Stray v) ?_ ?_
    · intro v hv
      exact hmono (h.sent i v (hleft v hv))
    · intro j _ v hv
      rcases List.mem_append.mp hv with hv | hv
      · exact hmono (h.sent j v hv)
      · exact .inl (hstride.passed_known hpass hv)
  heard := by
    refine hpass.forall (Q := fun _ s => R.Open s.node.phase → ∀ t j, R.HasCast (w' j).node t →
      R.ballot t j ∈ s.channel ∨ ∃ u, (s.node.engine.votesOf t)[R.slot j]? = some u)
      (h.heard_self hpass hstride htaken) ?_
    intro j _ hopen t l hl
    rcases hstride.passed_cases hpass l t hl with hl | hl
    · exact (h.heard j hopen t l hl).imp_left (List.mem_append_left _)
    · exact .inl (List.mem_append_right _ hl)
  backed := by
    refine hpass.forall (Q := fun _ s => R.Closed s.node.phase →
      R.valSet.quorumThreshold ≤ ∑ j ∈ precommitters w', R.valSet.powerOf (R.addr j))
      (h.backed_self hpass hstride hread) ?_
    intro j _ hclosed
    exact (h.backed j hclosed).trans (backed_mono (hstride.passed_hasCast hpass))

end Acting

/-- The signatures certify the block of the round. -/
def Seals (R : Round P ι) (sigs : List CommitSignature) : Prop :=
  ∀ block : Block, block.header.height = R.height → Hasher.blockHash P block.header = R.blockHash →
    block.lastCommit = sigs → R.valSet.Certifies P block

/-- Power of the validators that a test picks out, as a sum over addresses. -/
theorem sum_filter_validators {s : ValidatorSet} (hs : s.Exact) (q : Validator → Bool) :
    ((s.validators.filter q).map Validator.votingPower).sum =
      ∑ a ∈ ((s.validators.filter q).map Validator.address).toFinset, s.powerOf a := by
  have hnodup : ((s.validators.filter q).map Validator.address).Nodup :=
    hs.distinct.sublist (List.filter_sublist.map _)
  rw [List.sum_toFinset _ hnodup, List.map_map]
  refine congrArg List.sum (List.map_congr_left (fun v hv => ?_))
  exact (ValidatorSet.powerOf_of_mem hs.distinct (List.mem_of_mem_filter hv)).symm

/-- The signatures that come with a commit certify the block. -/
theorem At.seals {E : BftConsensusEngine} (hE : R.At E) (hq : R.Decides E .precommit) :
    R.Seals (E.aggregateCommitSignatures R.height R.number R.blockHash) := by
  intro block hheight hhash hcommit
  refine ⟨R.number, hq.trans ?_⟩
  rw [ValidatorSet.signedPower, sum_filter_validators R.exact]
  refine Finset.sum_le_sum_of_subset (fun a ha => ?_)
  obtain ⟨-, vote, hget, hchoice⟩ := mem_supporters.mp ha
  obtain ⟨hkey, htype, hlawful⟩ := hE.lawful .precommit _ _ hget
  have haddr : vote.validatorAddress = a := congrArg (·.2.2) hkey
  -- a precommit for the block is a seat's, under the key that the set has for it
  obtain ⟨j, hj⟩ : ∃ j, vote = R.ballot vote.voteType j :=
    hlawful.resolve_right (fun hout => hout.2 ⟨htype, hchoice⟩)
  rw [htype] at hj
  subst hj
  obtain ⟨v, hfind, hpublic⟩ := R.member j
  have hv : v ∈ R.valSet.validators := List.mem_of_find?_eq_some hfind
  have hva : v.address = R.addr j := by simpa [addr] using List.find?_some hfind
  rw [List.mem_toFinset, List.mem_map]
  refine ⟨v, List.mem_filter.mpr ⟨hv, ?_⟩, hva.trans haddr⟩
  rw [List.any_eq_true]
  refine ⟨⟨a, (R.ballot .precommit j).signature, 1700000000⟩, ?_, ?_⟩
  · rw [hcommit]
    exact BftConsensusEngine.mem_aggregate.mpr ⟨a, _, hget, rfl, rfl⟩
  · rw [decide_eq_true_iff]
    refine ⟨(hva.trans haddr).symm, ?_⟩
    rw [hheight, hhash, hpublic, hva]
    exact R.signs j _

/-- The ledger holds the block once the seat has accepted it, certified once the seat is done. -/
structure Sealed (R : Round P ι) (n : Node) : Prop where
  stored : ¬ R.Pending n.phase → ∃ block, n.ledger.blocks[R.height]? = some block ∧
    block.header.height = R.height ∧
    Hasher.blockHash P block.header = R.blockHash ∧
    (n.phase = .rebroadcasting R.height ∨ n.phase = .idle → R.valSet.Certifies P block)
  signed : ∀ sigs, n.phase = .finalizing R.height R.blockHash sigs → R.Seals sigs

section Sealing
variable {i : ι} {n : Node} {ev : Event} {read cast : List Vote}

theorem Entering.sealed (h : R.Entering n) : R.Sealed n := by
  have hphase : ∀ {Q : Prop}, R.Closed n.phase → Q :=
    fun hclosed => absurd hclosed (R.open_ne_closed h.open)
  refine ⟨fun hnot => ?_, fun sigs hp => hphase (.inl ⟨sigs, hp⟩)⟩
  obtain ⟨-, block, hblock, hheight, hhash⟩ := h.resolve_left hnot
  exact ⟨block, hblock, hheight, hhash, fun hdone => hphase (.inr hdone)⟩

/-- A seat that was voting keeps the header it votes for, and has sound signatures if it
commits now. -/
theorem Sealed.next_open (hs : R.Sealed n) (hstride : R.Stride i n (n.next P ev) read cast)
    (hopen : R.Open n.phase) (haccepted : ¬ R.Pending n.phase) : R.Sealed (n.next P ev) := by
  obtain ⟨block, hblock, hheight, hhash, -⟩ := hs.stored haccepted
  have hheader : (n.next P ev).ledger.headers[R.height]? = some block.header := by
    refine getElem?_of_prefix (n.headers_next ev) ?_
    rw [ChainLedger.headers, List.getElem?_map, hblock, Option.map_some]
  rw [ChainLedger.getElem?_headers, Option.map_eq_some_iff] at hheader
  obtain ⟨block', hblock', heq⟩ := hheader
  have hphase : ∀ {Q : Prop}, ((n.next P ev).phase = .rebroadcasting R.height ∨
      (n.next P ev).phase = .idle → Q) := by
    intro Q hdone
    have hend := (hstride.decided hopen (.inr hdone)).2
    rcases hdone with hp | hp <;> rw [hp] at hend <;> cases hend
  refine ⟨fun _ => ⟨block', hblock', by rw [heq, hheight], by rw [heq, hhash], hphase⟩,
    fun sigs hp => ?_⟩
  obtain ⟨hq, hend⟩ := hstride.decided hopen (.inl ⟨sigs, hp⟩)
  rw [hp] at hend
  cases hend
  exact hstride.ready.engine.seals hq

/-- A seat that has committed writes its signatures into the block. -/
theorem Sealed.finalize (hs : R.Sealed n) {sigs : List CommitSignature}
    (hp : n.phase = .finalizing R.height R.blockHash sigs) :
    R.Sealed (n.finalize P R.height R.blockHash sigs).1 := by
  obtain ⟨block, hblock, hheight, hhash, -⟩ := hs.stored (fun hpending =>
    R.open_ne_closed (.inl hpending) (.inl ⟨sigs, hp⟩))
  have hlt := (List.getElem?_eq_some_iff.mp hblock).1
  have hset : (n.ledger.setLastCommit P R.height sigs).1.blocks[R.height]? =
      some { block with lastCommit := sigs } := by
    simp only [ChainLedger.setLastCommit, hblock]
    exact List.getElem?_set_self hlt
  refine ⟨fun _ => ⟨_, hset, hheight, hhash, fun _ => hs.signed sigs hp _ hheight hhash rfl⟩,
    fun _ hp' => ?_⟩
  cases hp'

/-- A seat that has committed keeps the block and its signatures. -/
theorem Sealed.next_closed (hs : R.Sealed n) (hev : ev.inRound = true ∨ ∃ v o, ev = .vote v o)
    (hclosed : R.Closed n.phase) : R.Sealed (n.next P ev) := by
  obtain ⟨block, hblock, hheight, hhash, hcert⟩ :=
    hs.stored (fun hpending => R.open_ne_closed (.inl hpending) hclosed)
  have hkeep : ∀ L : ChainLedger, n.ledger.blocks <+: L.blocks → R.Sealed { n with ledger := L } :=
    fun L hgrows => ⟨fun _ => ⟨block, getElem?_of_prefix hgrows hblock, hheight, hhash, hcert⟩,
      hs.signed⟩
  have hnot : ∀ {h r : ℕ}, n.phase ≠ .reacting h r ∧ n.phase ≠ .voting h r ∧
      ∀ x, n.phase ≠ .prevoting h r x := by
    rcases hclosed with ⟨sigs, hp⟩ | hp | hp <;> simp [hp]
  have hfired := n.step_fired (P := P) ev
  unfold Node.next
  generalize n.step P ev = result at hfired
  cases hfired with
  | stutter | served => exact hs
  | @finalized h hash sigs hp =>
    obtain ⟨rfl, rfl⟩ : h = R.height ∧ hash = R.blockHash := by
      rcases hclosed with ⟨sigs', hp'⟩ | hp' | hp' <;> rw [hp] at hp' <;> cases hp'
      exact ⟨rfl, rfl⟩
    exact hs.finalize hp
  | @rebroadcasted h hp =>
    have hh : h = R.height := by
      rcases hclosed with ⟨sigs', hp'⟩ | hp' | hp' <;> rw [hp] at hp' <;> cases hp'
      rfl
    exact ⟨fun _ => ⟨block, hblock, hheight, hhash, fun _ => hcert (.inl (by rw [hp, hh]))⟩,
      fun _ hp' => by cases hp'⟩
  | gossipedBlock block => exact hkeep _ (n.ledger.prefix_applied block)
  | gossipedTx tx =>
    refine hkeep _ ?_
    rcases ChainLedger.submitTransaction_cases (P := P) n.ledger tx with h | h <;> rw [h]
  | listened => exact ⟨hs.stored, hs.signed⟩
  | prevoted hp => exact absurd hp (hnot.2.2 _)
  | reactedNot hp | reacted hp => exact absurd hp hnot.1
  | voted hp => exact absurd hp hnot.2.1
  | _ => rcases hev with hev | ⟨v, o, hev⟩ <;> cases hev

theorem Sealed.next (hs : R.Sealed n) (hn : R.Ready i n)
    (hstride : R.Stride i n (n.next P ev) read cast) (haccepted : ¬ R.Pending n.phase)
    (hev : ev.inRound = true ∨ ∃ v o, ev = .vote v o) :
    R.Sealed (n.next P ev) := by
  rcases hn.phase with hopen | hclosed
  · exact hs.next_open hstride hopen haccepted
  · exact hs.next_closed hev hclosed

end Sealing

/-- The seats are in the round, with the block or still without one, and nobody has voted. -/
structure Start (R : Round P ι) (w : Assembly ι) : Prop where
  localKey : ∀ i, (w i).node.localKey = R.keys i
  valSet_eq : ∀ i, (w i).node.engine.valSet = R.valSet
  height_eq : ∀ i, (w i).node.engine.state.height = R.height
  round_eq : ∀ i, (w i).node.engine.state.round = R.number
  votes : ∀ i t, (w i).node.engine.votesOf t = ∅
  entering : ∀ i, R.Entering (w i).node
  first : ∀ i, (w i).node.precommittedThisRound = false
  channel : ∀ i, ∀ v ∈ (w i).channel, R.Outside v ∨ R.Stray v

/-- No seat refuses the proposal, accepts another block or gives up the round. What arrives is
a vote that was cast, one of another validator that does not precommit the block, or one that
will be dropped. -/
def Allowed (R : Round P ι) (w : Assembly ι) : Motion ι → Prop
  | .act i ev => ev.inRound = true ∨
    R.Pending (w i).node.phase ∧ R.Entering ((w i).node.next P ev)
  | .read .. => True
  | .arrive _ v => R.Known w v ∨ R.Stray v

theorem Start.not_hasCast {w : Assembly ι} (h : R.Start w) (j : ι) (t : VoteType) :
    ¬ R.HasCast (w j).node t := by
  cases t with
  | prevote => exact (h.entering j).not_prevoted
  | precommit => simp [HasCast, h.first j]

theorem Start.orderly {w : Assembly ι} (h : R.Start w) : R.Orderly w where
  ready i := by
    refine ⟨h.localKey i, ⟨h.valSet_eq i, h.height_eq i, h.round_eq i,
      BftConsensusEngine.votesOk_of_empty _ (h.votes i)⟩, .inl (h.entering i).open, ?_,
      fun hp => absurd hp (h.entering i).not_voting⟩
    intro _ hq
    rw [Decides, h.votes] at hq
    simp [support, supporters, ValidatorSet.quorumThreshold] at hq
  filed i t k v hv := by
    rw [h.votes] at hv
    simp at hv
  sent i v hv := (h.channel i v hv).imp_left .inr
  heard i _ t j hj := absurd hj (h.not_hasCast j t)
  backed i hclosed := absurd hclosed (R.open_ne_closed (h.entering i).open)

section Steps
variable [DecidableEq ι] {w : Assembly ι}

/-- What holds along every run of a round. -/
structure Held (R : Round P ι) (w : Assembly ι) : Prop where
  orderly : R.Orderly w
  sealed : ∀ i, R.Sealed (w i).node

theorem Held.acted (h : R.Held w) {i : ι} {ev : Event} {read channel : List Vote}
    (hstride : R.Stride i (w i).node ((w i).node.next P ev) read
      (castVotes ((w i).node.step P ev).2))
    (hsealed : R.Sealed ((w i).node.next P ev)) (hread : ∀ v ∈ read, v ∈ (w i).channel)
    (hleft : ∀ v ∈ channel, v ∈ (w i).channel) (htaken : ∀ v ∈ (w i).channel, v ∈ channel ∨
      v ∈ read) :
    R.Held (w.acted P i ev channel) := by
  have hpass := Assembly.passes_acted (P := P) w i ev channel
  exact ⟨h.orderly.passed hpass hstride hread hleft htaken,
    hpass.forall (Q := fun _ s => R.Sealed s.node) hsealed (fun j _ => h.sealed j)⟩

theorem Held.arrive (h : R.Held w) {i : ι} {v : Vote} (hv : R.Known w v ∨ R.Stray v) :
    R.Held (w.step P (.arrive i v)) := by
  have hnode : ∀ j, (w.step P (.arrive i v) j).node = (w j).node := by
    intro j
    rw [Assembly.step_arrive]
  have hknown : ∀ {u}, R.Known w u → R.Known (w.step P (.arrive i v)) u :=
    fun hu => hu.mono (fun j t hj => by rwa [hnode])
  have hcast : precommitters (w.step P (.arrive i v)) = precommitters w := by
    simp only [precommitters, hnode]
  refine ⟨⟨fun j => ?_, fun j t k u hu => ?_, fun j u hu => ?_, fun j hopen t l hl =>
    ?_, fun j hc => ?_⟩, fun j => ?_⟩
  · rw [hnode]
    exact h.orderly.ready j
  · rw [hnode] at hu
    exact hknown (h.orderly.filed j t k u hu)
  · rw [Assembly.step_arrive] at hu
    rcases List.mem_append.mp hu with hu | hu
    · exact (h.orderly.sent j u hu).imp_left hknown
    · split at hu
      · rw [List.mem_singleton.mp hu]
        exact hv.imp_left hknown
      · cases hu
  · rw [hnode] at hopen hl
    rw [Assembly.step_arrive]
    exact (h.orderly.heard j hopen t l hl).imp_left (List.mem_append_left _)
  · rw [hnode] at hc
    rw [hcast]
    exact h.orderly.backed j hc
  · rw [hnode]
    exact h.sealed j

theorem Held.step (h : R.Held w) {m : Motion ι} (hm : R.Allowed w m) : R.Held (w.step P m) := by
  cases m with
  | act i ev =>
    have hstride := (h.orderly.ready i).stride_act hm
    have hsealed : R.Sealed ((w i).node.next P ev) := by
      by_cases hpending : R.Pending (w i).node.phase
      · exact (hpending.entering hm).sealed
      · exact (h.sealed i).next (h.orderly.ready i) hstride hpending
          (.inl (hm.resolve_right (fun h => hpending h.1)))
    exact h.acted hstride hsealed (fun v hv => by cases hv) (fun v hv => hv) (fun v hv => .inl hv)
  | read i v o =>
    simp only [Assembly.step]
    split
    · rename_i hcan
      have hstride := (h.orderly.ready i).stride_vote hcan.1
        ((h.orderly.sent i v hcan.2).imp_left Known.lawful) o
      have hpending : ¬ R.Pending (w i).node.phase := by
        intro hpending
        obtain ⟨_, hp⟩ | ⟨_, hp⟩ | ⟨_, _, hp⟩ := hpending.cases <;> rw [hp] at hcan <;> cases hcan.1
      refine h.acted hstride ((h.sealed i).next (h.orderly.ready i) hstride hpending
        (.inr ⟨v, o, rfl⟩)) ?_ ?_ ?_
      · intro u hu
        rw [List.mem_singleton.mp hu]
        exact hcan.2
      · intro u hu
        exact List.mem_of_mem_erase hu
      · intro u hu
        by_cases huv : u = v
        · exact .inr (List.mem_singleton.mpr huv)
        · exact .inl ((List.mem_erase_of_ne huv).mpr hu)
    · exact h
  | arrive i v => exact h.arrive hm

end Steps

end Round

end Sprax
