import Sprax.RoundRobin
import Sprax.Proposers
import Sprax.Runs
import Sprax.Tally

/-!
# Proposers get their share

Selection is weighted round robin over the members of a validator set, in saturating
64-bit arithmetic. As long as the number of members times the total power fits in a
signed word nothing saturates and the priorities are the credits of the abstract
schedule. A refresh by a fresh copy of the set carries all priorities over, so it
changes nothing. Every member then proposes in exact proportion to its power.
-/
namespace Sprax

/-- A list with distinct keys, changed in the place of one element. -/
theorem modify_eq_map {α κ : Type*} [DecidableEq κ] {key : α → κ} {l : List α}
    (hnodup : (l.map key).Nodup) {i : ℕ} {a : α} (ha : l[i]? = some a) (g : α → α) :
    l.modify i g = l.map (fun x => if key x = key a then g x else x) := by
  apply List.ext_getElem?
  intro j
  rw [List.getElem?_modify, List.getElem?_map]
  cases hj : l[j]? with
  | none => rfl
  | some b =>
    by_cases hij : i = j
    · subst hij
      rw [ha] at hj
      cases hj
      simp
    · have hkey : key b ≠ key a := by
        intro heq
        have hb : (l.map key)[j]? = some (key b) := by simp [hj]
        have ha' : (l.map key)[i]? = some (key b) := by simp [ha, heq]
        have hi : i < (l.map key).length := (List.getElem?_eq_some_iff.mp ha').1
        exact hij ((List.getElem?_inj hi hnodup).mp (ha'.trans hb.symm))
      simp [hij, hkey]

namespace ValidatorSet

/-- The scan keeps the place of a member of highest priority. -/
theorem maxIdxFrom_max {l seen rest : List Validator} (hl : l = seen ++ rest) {best : ℕ}
    {b : Validator} (hb : l[best]? = some b)
    (hseen : ∀ v ∈ seen, v.proposerPriority ≤ b.proposerPriority) :
    ∃ w, l[maxIdxFrom seen.length best b.proposerPriority rest]? = some w ∧
      ∀ v ∈ l, v.proposerPriority ≤ w.proposerPriority := by
  induction rest generalizing seen best b with
  | nil => exact ⟨b, hb, by simpa [hl] using hseen⟩
  | cons x rest ih =>
    have hsplit : l = (seen ++ [x]) ++ rest := by rw [hl, List.append_assoc, List.singleton_append]
    have hlen : (seen ++ [x]).length = seen.length + 1 := by simp
    rw [maxIdxFrom, ← hlen]
    split
    · rename_i hle
      refine ih hsplit (by simp [hl]) (fun v hv => ?_)
      rcases List.mem_append.mp hv with hv | hv
      · exact (hseen v hv).trans hle
      · rw [List.mem_singleton.mp hv]
    · rename_i hgt
      refine ih hsplit hb (fun v hv => ?_)
      rcases List.mem_append.mp hv with hv | hv
      · exact hseen v hv
      · rw [List.mem_singleton.mp hv]
        exact (lt_of_not_ge hgt).le

theorem maxIdx_max {l : List Validator} (h : l ≠ []) :
    ∃ w, l[maxIdx l]? = some w ∧ ∀ v ∈ l, v.proposerPriority ≤ w.proposerPriority := by
  cases l with
  | nil => exact absurd rfl h
  | cons v rest =>
    have hl : v :: rest = [v] ++ rest := rfl
    exact maxIdxFrom_max hl rfl (by simp)

/-- A set as it is built, with distinct members, a total that did not wrap and room for
the priorities. -/
structure Proportioned (s : ValidatorSet) : Prop where
  built : ∃ validators, new validators = .ok s
  distinct : (s.validators.map Validator.address).Nodup
  total_eq : s.totalVotingPower = (s.validators.map Validator.votingPower).sum
  room : s.validators.length * s.totalVotingPower < 2 ^ 63
  fresh : s.Fresh

/-- The next selection computes without saturation and without a wrapping conversion. -/
def Unsaturated (s : ValidatorSet) : Prop :=
  toI64 s.totalVotingPower = s.totalVotingPower ∧
  (∀ v ∈ s.validators, toI64 v.votingPower = v.votingPower ∧
    saturateI64 (v.proposerPriority + toI64 v.votingPower) =
      v.proposerPriority + toI64 v.votingPower) ∧
  ∀ v, s.bumped[maxIdx s.bumped]? = some v →
    saturateI64 (v.proposerPriority - toI64 s.totalVotingPower) =
      v.proposerPriority - toI64 s.totalVotingPower

/-- The set with other priorities. -/
def withPriorities (s : ValidatorSet) (priority : Address → ℤ) : ValidatorSet :=
  { s with
    validators := s.validators.map (fun v => { v with proposerPriority := priority v.address })
    validators_ne := by simpa using s.validators_ne }

/-- The priority of an address, zero if it is not a member. -/
def priorityOf (s : ValidatorSet) (a : Address) : ℤ := (s.find a).elim 0 Validator.proposerPriority

/-- Priorities with which the next selection neither saturates nor wraps. -/
structure InRange (s : ValidatorSet) (priority : Address → ℤ) : Prop where
  raised : ∀ a ∈ s.members, -2 ^ 63 ≤ priority a + s.powerOf a ∧ priority a + s.powerOf a < 2 ^ 63
  lowered : ∀ k, RoundRobin.Selects s.members s.powerOf priority k →
    -2 ^ 63 ≤ priority k + s.powerOf k - s.totalVotingPower

theorem toI64_of_lt {n : ℕ} (h : n < 2 ^ 63) : toI64 n = n := by
  have hmod : n % 2 ^ 64 = n := Nat.mod_eq_of_lt (by omega)
  rw [toI64, hmod, if_pos h]

theorem saturateI64_of_mem {z : ℤ} (hlow : -2 ^ 63 ≤ z) (hhigh : z < 2 ^ 63) :
    saturateI64 z = z := by
  unfold saturateI64
  omega

section Step
variable {s : ValidatorSet} {priority : Address → ℤ}

theorem Exact.total (hs : s.Exact) : RoundRobin.total s.members s.powerOf = s.totalVotingPower := by
  rw [hs.total_eq]
  exact sum_powerOf hs.distinct

theorem Exact.card (hs : s.Exact) : s.members.card = s.validators.length := by
  rw [members, List.toFinset_card_of_nodup hs.distinct, List.length_map]

theorem Exact.powerOf_le (hs : s.Exact) {a : Address} (ha : a ∈ s.members) :
    s.powerOf a ≤ s.totalVotingPower := by
  rw [← hs.total]
  exact RoundRobin.weight_le_total ha

/-- The power of a member as a signed word. -/
theorem Exact.toI64_power (hs : s.Exact) {v : Validator} (hv : v ∈ s.validators) :
    toI64 v.votingPower = v.votingPower := by
  have hle := hs.powerOf_le (mem_members.mpr ⟨v, hv, rfl⟩)
  have hlt := hs.total_lt
  rw [powerOf_of_mem hs.distinct hv] at hle
  exact toI64_of_lt (by omega)

theorem bumped_withPriorities (hs : s.Exact) (hp : s.InRange priority) :
    (s.withPriorities priority).bumped =
      (s.withPriorities (fun a => priority a + s.powerOf a)).validators := by
  simp only [bumped, withPriorities, List.map_map]
  refine List.map_congr_left (fun v hv => ?_)
  obtain ⟨hlow, hhigh⟩ := hp.raised v.address (mem_members.mpr ⟨v, hv, rfl⟩)
  simp only [Function.comp_apply]
  rw [powerOf_of_mem hs.distinct hv] at hlow hhigh ⊢
  rw [hs.toI64_power hv, saturateI64_of_mem hlow hhigh]

/-- The set after a selection and its proposer, by the place that was selected. -/
theorem selectProposer_of_maxIdx {t : ValidatorSet} {w : Validator}
    (hw : t.bumped[maxIdx t.bumped]? = some w) :
    t.selectProposer.1.validators = t.bumped.modify (maxIdx t.bumped) (lower t.totalVotingPower) ∧
      t.selectProposer.2 = lower t.totalVotingPower w := by
  refine ⟨rfl, ?_⟩
  have hget : (t.bumped.modify (maxIdx t.bumped) (lower t.totalVotingPower))[maxIdx t.bumped]? =
      some (lower t.totalVotingPower w) := by
    rw [List.getElem?_modify, hw]
    simp
  exact (List.getElem?_eq_some_iff.mp hget).2

@[simp] theorem addresses_withPriorities (s : ValidatorSet) (priority : Address → ℤ) :
    (s.withPriorities priority).validators.map Validator.address =
      s.validators.map Validator.address := by
  simp [withPriorities]

/-- The scan finds a member to which the turn may go. -/
theorem exists_selected (hs : s.Exact) (hp : s.InRange priority) :
    ∃ v ∈ s.validators, RoundRobin.Selects s.members s.powerOf priority v.address ∧
      (s.withPriorities priority).bumped[maxIdx (s.withPriorities priority).bumped]? =
        some { v with proposerPriority := priority v.address + s.powerOf v.address } := by
  obtain ⟨w, hw, hmax⟩ := maxIdx_max (s.withPriorities priority).bumped_ne
  have hmem := List.mem_of_getElem? hw
  rw [bumped_withPriorities hs hp] at hmem hmax
  obtain ⟨v, hv, rfl⟩ := List.mem_map.mp hmem
  refine ⟨v, hv, ⟨mem_members.mpr ⟨v, hv, rfl⟩, fun a ha => ?_⟩, hw⟩
  obtain ⟨u, hu, rfl⟩ := mem_members.mp ha
  exact hmax _ (List.mem_map_of_mem hu)

/-- Taking the total from the selected member stays in range. -/
theorem lowered_selected (hs : s.Exact) (hp : s.InRange priority) {k : Address}
    (hk : RoundRobin.Selects s.members s.powerOf priority k) :
    saturateI64 (priority k + s.powerOf k - toI64 s.totalVotingPower) =
      priority k + s.powerOf k - toI64 s.totalVotingPower := by
  have hhigh := (hp.raised k hk.1).2
  have hlow := hp.lowered k hk
  rw [toI64_of_lt hs.total_lt]
  exact saturateI64_of_mem hlow (by omega)

theorem unsaturated_withPriorities (hs : s.Exact) (hp : s.InRange priority) :
    (s.withPriorities priority).Unsaturated := by
  obtain ⟨v, -, hselects, hplace⟩ := exists_selected hs hp
  refine ⟨toI64_of_lt hs.total_lt, fun x hx => ?_, fun x hx => ?_⟩
  · obtain ⟨u, hu, rfl⟩ := List.mem_map.mp hx
    obtain ⟨hlow, hhigh⟩ := hp.raised u.address (mem_members.mpr ⟨u, hu, rfl⟩)
    rw [powerOf_of_mem hs.distinct hu] at hlow hhigh
    have hcast := hs.toI64_power hu
    refine ⟨hcast, ?_⟩
    dsimp only
    rw [hcast]
    exact saturateI64_of_mem hlow hhigh
  · cases hplace.symm.trans hx
    exact lowered_selected hs hp hselects

/-- One selection is one turn of the schedule. -/
theorem selectProposer_withPriorities (hs : s.Exact) (hp : s.InRange priority) :
    ∃ k, RoundRobin.Selects s.members s.powerOf priority k ∧
      (s.withPriorities priority).selectProposer.1 =
        s.withPriorities (RoundRobin.settle s.members s.powerOf priority k) ∧
      (s.withPriorities priority).selectProposer.2.address = k := by
  obtain ⟨v, -, hselects, hplace⟩ := exists_selected hs hp
  obtain ⟨hset, hproposer⟩ := selectProposer_of_maxIdx hplace
  have haddress : (s.withPriorities priority).selectProposer.2.address = v.address := by
    rw [hproposer]
    rfl
  refine ⟨v.address, hselects, eq_of_validators ?_ rfl, haddress⟩
  have hnodup : ((s.withPriorities priority).bumped.map Validator.address).Nodup := by
    rw [bumped_withPriorities hs hp, addresses_withPriorities]
    exact hs.distinct
  rw [hset, modify_eq_map hnodup hplace, bumped_withPriorities hs hp]
  simp only [withPriorities, List.map_map]
  refine List.map_congr_left (fun u hu => ?_)
  simp only [Function.comp_apply, RoundRobin.settle, hs.total]
  split
  · rename_i hsame
    simp only [lower, hsame]
    rw [lowered_selected hs hp hselects, toI64_of_lt hs.total_lt]
  · rw [sub_zero]

theorem withPriorities_zero (hs : s.Fresh) : s.withPriorities 0 = s := by
  refine eq_of_validators ?_ rfl
  refine (List.map_congr_left (fun v hv => ?_)).trans (List.map_id _)
  simp only [Pi.zero_apply, ← hs v hv, id_eq]

theorem withPriorities_congr {p q : Address → ℤ} (h : ∀ a ∈ s.members, p a = q a) :
    s.withPriorities p = s.withPriorities q := by
  refine eq_of_validators (List.map_congr_left (fun v hv => ?_)) rfl
  rw [h v.address (mem_members.mpr ⟨v, hv, rfl⟩)]

theorem priorityOf_of_mem (hdistinct : (s.validators.map Validator.address).Nodup) {v : Validator}
    (hv : v ∈ s.validators) : s.priorityOf v.address = v.proposerPriority := by
  rw [priorityOf, find_of_mem hdistinct hv, Option.elim_some]

/-- A refresh by a fresh set gives every member the priority it had. -/
theorem carriedFrom_eq {old : ValidatorSet} (hs : s.Fresh) :
    s.carriedFrom old = s.withPriorities old.priorityOf := by
  refine eq_of_validators (List.map_congr_left (fun v hv => ?_)) rfl
  unfold BftConsensusEngine.carryPriority priorityOf
  cases old.find v.address with
  | none => rw [Option.elim_none, ← hs v hv]
  | some w => rw [Option.elim_some]

theorem withPriorities_of_roster {t : ValidatorSet} (hroster : s.roster = t.roster)
    (htotal : s.totalVotingPower = t.totalVotingPower) :
    s.withPriorities priority = t.withPriorities priority := by
  have hread : ∀ u : ValidatorSet, (u.withPriorities priority).validators =
      u.roster.map (fun e => ⟨e.1, e.2.1, e.2.2, priority e.1⟩) := by
    intro u
    rw [roster, List.map_map]
    rfl
  exact eq_of_validators (by rw [hread, hread, hroster]) htotal

theorem priorityOf_withPriorities (hdistinct : (s.validators.map Validator.address).Nodup)
    {a : Address} (ha : a ∈ s.members) : (s.withPriorities priority).priorityOf a = priority a := by
  obtain ⟨v, hv, rfl⟩ := mem_members.mp ha
  have hmem : { v with proposerPriority := priority v.address } ∈
      (s.withPriorities priority).validators := List.mem_map_of_mem hv
  exact priorityOf_of_mem (by rwa [addresses_withPriorities]) hmem

/-- A refresh by a fresh set with the same members and powers changes nothing. -/
theorem carriedFrom_unchanged {t : ValidatorSet} (hs : s.Fresh) (hroster : s.roster = t.roster)
    (htotal : s.totalVotingPower = t.totalVotingPower)
    (hdistinct : (t.validators.map Validator.address).Nodup) :
    s.carriedFrom (t.withPriorities priority) = t.withPriorities priority := by
  rw [carriedFrom_eq hs, withPriorities_of_roster hroster htotal]
  exact withPriorities_congr (fun a ha => priorityOf_withPriorities hdistinct ha)

theorem Proportioned.total_pos (hs : s.Proportioned) : 0 < s.totalVotingPower := by
  obtain ⟨validators, hnew⟩ := hs.built
  exact Nat.pos_of_ne_zero (new_ok hnew).2.2

/-- The total alone fits in a signed word. -/
theorem Proportioned.exact (hs : s.Proportioned) : s.Exact := by
  refine ⟨hs.distinct, hs.total_eq, ?_⟩
  have hlen : 1 ≤ s.validators.length := List.length_pos_iff.mpr s.validators_ne
  have hmul := Nat.mul_le_mul_right s.totalVotingPower hlen
  have hroom := hs.room
  omega

theorem Proportioned.pos (hs : s.Proportioned) : 0 < RoundRobin.total s.members s.powerOf := by
  rw [hs.exact.total]
  exact hs.total_pos

theorem Proportioned.inRange (hs : s.Proportioned)
    (hp : RoundRobin.Level s.members s.powerOf priority) : s.InRange priority := by
  have htotal := hs.exact.total_lt
  refine ⟨fun a ha => ?_, fun k hk => ?_⟩
  · have habove := hp.above a ha
    have hbelow := hp.le ha
    have hpower := hs.exact.powerOf_le ha
    have hroom : (s.validators.length : ℤ) * s.totalVotingPower < 2 ^ 63 := by
      exact_mod_cast hs.room
    rw [hs.exact.total] at habove hbelow
    rw [hs.exact.card, sub_mul, one_mul] at hbelow
    constructor
    · omega
    · omega
  · have hspend := hp.selected_pos hs.pos hk
    omega

end Step

end ValidatorSet

/-- The two calls of an engine that touch priorities. -/
inductive SetCall
  | selectProposer
  | setValidatorSet (valSet : ValidatorSet)
  deriving DecidableEq

namespace BftConsensusEngine

def setCall (E : BftConsensusEngine) : SetCall → BftConsensusEngine
  | .selectProposer => E.selectProposer.1
  | .setValidatorSet valSet => E.setValidatorSet valSet

/-- The proposers that the calls return, in order. -/
def proposers (E : BftConsensusEngine) : List SetCall → List Address
  | [] => []
  | .selectProposer :: rest => E.selectProposer.2.address :: proposers E.selectProposer.1 rest
  | .setValidatorSet valSet :: rest => proposers (E.setValidatorSet valSet) rest

theorem proposers_length (E : BftConsensusEngine) (calls : List SetCall) :
    (E.proposers calls).length = calls.count .selectProposer := by
  induction calls generalizing E with
  | nil => rfl
  | cons c rest ih => cases c <;> simp [proposers, ih]

/-- Every refresh hands over a fresh set with the members and powers of `s`. -/
def Refreshes (s : ValidatorSet) (calls : List SetCall) : Prop :=
  ∀ t, .setValidatorSet t ∈ calls →
    t.Fresh ∧ t.roster = s.roster ∧ t.totalVotingPower = s.totalVotingPower

/-- The engine plays the turns of one schedule, whatever refreshes come between, as long as the
priorities are in range. The range `I` may depend on the number of calls still to come. -/
theorem turns_of_refreshes {s : ValidatorSet} (hs : s.Exact) {I : ℕ → (Address → ℤ) → Prop}
    (hrange : ∀ k p, I (k + 1) p → s.InRange p) (hkeep : ∀ k p, I (k + 1) p → I k p)
    (hsettle : ∀ k p a, I (k + 1) p → RoundRobin.Selects s.members s.powerOf p a →
      I k (RoundRobin.settle s.members s.powerOf p a))
    {E : BftConsensusEngine} {priority : Address → ℤ} (hE : E.valSet = s.withPriorities priority)
    {calls : List SetCall} (hI : I calls.length priority) (hcalls : Refreshes s calls) :
    RoundRobin.Turns s.members s.powerOf priority (E.proposers calls) ∧
      (Runs.run setCall E calls).valSet =
        s.withPriorities (RoundRobin.settled s.members s.powerOf priority (E.proposers calls)) := by
  induction calls generalizing E priority with
  | nil => exact ⟨trivial, hE⟩
  | cons c rest ih =>
    have hrest : Refreshes s rest := fun t ht => hcalls t (List.mem_cons_of_mem c ht)
    cases c with
    | selectProposer =>
      obtain ⟨k, hselects, hnext, hproposer⟩ :=
        ValidatorSet.selectProposer_withPriorities hs (hrange _ _ hI)
      rw [← hE] at hnext hproposer
      have hfirst : E.proposers (.selectProposer :: rest) =
          k :: E.selectProposer.1.proposers rest := by
        rw [← hproposer]
        rfl
      obtain ⟨hturns, hset⟩ := ih (E := E.selectProposer.1) hnext (hsettle _ _ k hI hselects) hrest
      rw [hfirst]
      exact ⟨⟨hselects, hturns⟩, hset⟩
    | setValidatorSet t =>
      obtain ⟨hfresh, hroster, hsum⟩ := hcalls t List.mem_cons_self
      have hcarried : (E.setValidatorSet t).valSet = s.withPriorities priority := by
        rw [← ValidatorSet.carriedFrom_unchanged hfresh hroster hsum hs.distinct, ← hE]
        rfl
      exact ih hcarried (hkeep _ _ hI) hrest

/-- Priorities that start at zero stay in range. -/
theorem turns_of_proportioned {s : ValidatorSet} (hs : s.Proportioned) {E : BftConsensusEngine}
    (hE : E.valSet = s) {calls : List SetCall} (hcalls : Refreshes s calls) :
    RoundRobin.Turns s.members s.powerOf 0 (E.proposers calls) ∧
      (Runs.run setCall E calls).valSet =
        s.withPriorities (RoundRobin.settled s.members s.powerOf 0 (E.proposers calls)) := by
  refine turns_of_refreshes hs.exact (I := fun _ => RoundRobin.Level s.members s.powerOf)
    (fun _ _ hp => hs.inRange hp) (fun _ _ hp => hp) (fun _ _ _ hp hk => hp.settle hs.pos hk) ?_
    (RoundRobin.level_zero hs.pos) hcalls
  rw [ValidatorSet.withPriorities_zero hs.fresh, hE]

/-- After whole rounds the set is the one that the engine started with. -/
theorem valSet_of_rounds {s : ValidatorSet} (hs : s.Proportioned) {E : BftConsensusEngine}
    (hE : E.valSet = s) {calls : List SetCall} (hcalls : Refreshes s calls) {m : ℕ}
    (hcount : calls.count .selectProposer = m * s.totalVotingPower) :
    (Runs.run setCall E calls).valSet = s ∧
      ∀ v ∈ s.validators, (E.proposers calls).count v.address = m * v.votingPower := by
  obtain ⟨hturns, hset⟩ := turns_of_proportioned hs hE hcalls
  have hlen : (E.proposers calls).length = m * RoundRobin.total s.members s.powerOf := by
    rw [proposers_length, hcount, hs.exact.total]
  have hround := RoundRobin.count_of_rounds hs.pos hturns hlen
  refine ⟨?_, fun v hv => ?_⟩
  · have hback : s.withPriorities (RoundRobin.settled s.members s.powerOf 0 (E.proposers calls)) =
        s.withPriorities 0 := ValidatorSet.withPriorities_congr (fun a ha => (hround a ha).2)
    rw [hset, hback, ValidatorSet.withPriorities_zero hs.fresh]
  · rw [(hround v.address (ValidatorSet.mem_members.mpr ⟨v, hv, rfl⟩)).1,
      ValidatorSet.powerOf_of_mem hs.distinct hv]

/-- Selection is exactly proportional. Between any two calls the priorities sum to zero,
each is above minus the total and the next selection does not saturate. Every round of
as many selections as the total power, counted from the start, selects each member as
often as its power says and leaves the set as it was, with all priorities zero. -/
theorem proposers_proportional {s : ValidatorSet} (hs : s.Proportioned) {E : BftConsensusEngine}
    (hE : E.valSet = s) :
    (∀ calls, Refreshes s calls →
      ((Runs.run setCall E calls).valSet.validators.map Validator.proposerPriority).sum = 0 ∧
        (∀ v ∈ (Runs.run setCall E calls).valSet.validators,
          -(s.totalVotingPower : ℤ) < v.proposerPriority) ∧
        (Runs.run setCall E calls).valSet.Unsaturated) ∧
    ∀ before round, Refreshes s before → Refreshes s round →
      s.totalVotingPower ∣ before.count .selectProposer →
      round.count .selectProposer = s.totalVotingPower →
      (∀ v ∈ s.validators,
        ((Runs.run setCall E before).proposers round).count v.address = v.votingPower) ∧
        (Runs.run setCall E (before ++ round)).valSet = s := by
  refine ⟨fun calls hcalls => ?_, fun before round hbefore hround hdvd hcount => ?_⟩
  · obtain ⟨hturns, hset⟩ := turns_of_proportioned hs hE hcalls
    have hlevel := (RoundRobin.level_zero hs.pos).settled hs.pos hturns
    rw [hset]
    refine ⟨?_, fun x hx => ?_, ValidatorSet.unsaturated_withPriorities hs.exact
      (hs.inRange hlevel)⟩
    · rw [← hlevel.sum_zero, ValidatorSet.sum_members hs.distinct, ValidatorSet.withPriorities,
        List.map_map]
      rfl
    · obtain ⟨v, hv, rfl⟩ := List.mem_map.mp hx
      rw [← hs.exact.total]
      exact hlevel.above v.address (ValidatorSet.mem_members.mpr ⟨v, hv, rfl⟩)
  · obtain ⟨m, hm⟩ := hdvd
    rw [mul_comm] at hm
    have hstart := (valSet_of_rounds hs hE hbefore hm).1
    obtain ⟨hend, hcounts⟩ := valSet_of_rounds hs hstart hround (hcount.trans (one_mul _).symm)
    refine ⟨fun v hv => (hcounts v hv).trans (one_mul _), ?_⟩
    rw [Runs.run_append]
    exact hend

end BftConsensusEngine

namespace Devnet

/-- Two members with powers 1 and 2, in the order of their addresses. -/
def unevenSet : ValidatorSet :=
  ⟨[⟨addressOf 1, [], 1, 0⟩, ⟨addressOf 2, [], 2, 0⟩], 3, List.cons_ne_nil _ _⟩

theorem unevenSet_proportioned : unevenSet.Proportioned where
  built := ⟨unevenSet.validators, by decide +kernel⟩
  distinct := by decide +kernel
  total_eq := by decide +kernel
  room := by decide +kernel
  fresh := by simp [ValidatorSet.Fresh, unevenSet]

/-- A round with a refresh in it. -/
def refreshedRound : List SetCall :=
  [.selectProposer, .setValidatorSet unevenSet, .selectProposer, .selectProposer]

theorem refreshedRound_refreshes : BftConsensusEngine.Refreshes unevenSet refreshedRound := by
  intro t ht
  obtain rfl : t = unevenSet := by simpa [refreshedRound] using ht
  exact ⟨unevenSet_proportioned.fresh, rfl, rfl⟩

end Devnet

theorem BftConsensusEngine.proposers_proportional_devnet :
    Devnet.unevenSet.Proportioned ∧
      ∀ v ∈ Devnet.unevenSet.validators,
        ((Runs.run setCall (new 1 Devnet.unevenSet) Devnet.refreshedRound).proposers
          Devnet.refreshedRound).count v.address = v.votingPower :=
  ⟨Devnet.unevenSet_proportioned,
    ((proposers_proportional Devnet.unevenSet_proportioned rfl).2 Devnet.refreshedRound
      Devnet.refreshedRound Devnet.refreshedRound_refreshes Devnet.refreshedRound_refreshes
      (by decide) (by decide)).1⟩

end Sprax
