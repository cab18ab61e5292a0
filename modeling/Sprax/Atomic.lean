import Sprax.Supply
import Sprax.Escrow
import Sprax.Ballots

/-!
# Which contract calls are atomic

A call that returns `Err` keeps what it wrote before it failed. The escrow writes
once and last. The token and the governance contract write two or three times in
one call: each of these calls can be cut, by the gas limit or by a check that
comes after the first write. `Torn` states for each message, over the storage, the
caller and the meter, when that happens with a visible change.
-/
namespace Sprax.Wasm
open Std FiniteMap Effects ContractStorage

namespace ContractStorage
variable {s : ContractStorage} {contract : Address} {key value : Bytes}

theorem same_refl (s : ContractStorage) : Same s s := fun _ _ => rfl

theorem same_setRaw_iff : Same (s.setRaw contract key value) s ↔ s.getRaw contract key =
    some value := by
  constructor
  · intro h
    rw [← h contract key, getRaw_setRaw_self]
  · intro h c k
    by_cases hk : contract = c ∧ key = k
    · obtain ⟨rfl, rfl⟩ := hk
      rw [getRaw_setRaw_self, h]
    · exact getRaw_setRaw_ne s value hk

theorem readGas_setRaw_ne {k : Bytes} (h : key ≠ k) :
    (s.setRaw contract key value).readGas contract k = s.readGas contract k := by
  rw [readGas, readGas, getRaw_setRaw_ne s value (fun hk => h hk.2)]

end ContractStorage

/-- A call that returns `Err` leaves every key of every contract as it was. -/
def AtomicAt {μ : Type} (execute : Env → MessageInfo → μ → Exec ContractResponse)
    (s : ContractStorage) (c : Invocation μ) : Prop :=
  ∀ e, (invoke execute s c).2 = .error (.error e) → Same (invoke execute s c).1 s

theorem atomicAt_iff {μ : Type} {execute : Env → MessageInfo → μ → Exec ContractResponse}
    {s : ContractStorage} {c : Invocation μ} :
    AtomicAt execute s c ↔
      ¬ Raises (execute c.env c.info c.msg) ⟨s, c.gas⟩ (onErr (fun t => ¬ Same t s)) := by
  rw [raises_iff_finish]
  simp only [AtomicAt, invoke, not_exists, not_and, not_not]

namespace TokenContract
variable (P : Primitives) (J : TokenJson)

/-- The stored balance of an address. -/
def balanceAt (s : ContractStorage) (contract a : Address) : Amount :=
  readAmount J (s.getRaw contract (balanceKey a))

/-- The cost of a transfer up to the debit. -/
def debitGas (s : ContractStorage) (contract source dest : Address) (x : Amount) : ℕ :=
  s.readGas contract (balanceKey source) + s.readGas contract (balanceKey dest) +
    writeGas (balanceKey source) (J.amount.toVec x)

/-- The cost of a whole transfer. -/
def transferGas (s : ContractStorage) (contract source dest : Address) (x y : Amount) : ℕ :=
  debitGas J s contract source dest x + writeGas (balanceKey dest) (J.amount.toVec y)

/-- The cost of reading the allowance and writing what is left of it. -/
def allowanceGas (s : ContractStorage) (contract owner spender : Address) (left : Amount) : ℕ :=
  s.readGas contract (allowanceKey owner spender) +
    writeGas (allowanceKey owner spender) (J.amount.toVec left)

/-- The cost of reading the token record and writing it with another supply. -/
def supplyGas (s : ContractStorage) (contract : Address) (info : TokenInfo) : ℕ :=
  s.readGas contract keyInfo + writeGas keyInfo (J.info.toVec info)

/-- The cost of reading a balance and writing another. -/
def balanceGas (s : ContractStorage) (contract a : Address) (x : Amount) : ℕ :=
  s.readGas contract (balanceKey a) + writeGas (balanceKey a) (J.amount.toVec x)

/-- The inputs at which a call fails after a write that changed something: the
transfer between debit and credit, the transfer by allowance at any point after
the allowance, the mint after the supply and the burn after the balance. -/
def Torn (s : ContractStorage) (c : Invocation TokenExecuteMsg) : Prop :=
  let contract := c.env.contractAddress
  match c.msg with
  | .transfer recipient amount =>
    amount.atto ≠ 0 ∧ ∃ x y, (balanceAt J s contract c.info.sender).checkedSub amount = .ok x ∧
      (balanceAt J s contract recipient).checkedAdd amount = .ok y ∧
      c.gas.Affords (debitGas J s contract c.info.sender recipient x) ∧
      ¬ c.gas.Affords (transferGas J s contract c.info.sender recipient x y)
  | .transferFrom owner recipient amount =>
    amount.atto ≠ 0 ∧
        ∃ left, (readAmount J (s.getRaw contract (allowanceKey owner c.info.sender))).checkedSub
          amount = .ok left ∧
      c.gas.Affords (allowanceGas J s contract owner c.info.sender left) ∧
      ∀ x y, (balanceAt J s contract owner).checkedSub amount = .ok x →
        (balanceAt J s contract recipient).checkedAdd amount = .ok y →
        ¬ c.gas.Affords (allowanceGas J s contract owner c.info.sender left +
          transferGas J s contract owner recipient x y)
  | .approve _ _ => False
  | .mint recipient amount =>
    ∃ bytes info supply, s.getRaw contract keyInfo = some bytes ∧
      (J.info.fromSlice bytes).toOption = some info ∧ info.minter = some c.info.sender ∧
      info.totalSupply.checkedAdd amount = .ok supply ∧
      J.info.toVec { info with totalSupply := supply } ≠ bytes ∧
      c.gas.Affords (supplyGas J s contract { info with totalSupply := supply }) ∧
      ∀ x, (balanceAt J s contract recipient).checkedAdd amount = .ok x →
        ¬ c.gas.Affords (supplyGas J s contract { info with totalSupply := supply } +
          balanceGas J s contract recipient x)
  | .burn amount =>
    ∃ x, (balanceAt J s contract c.info.sender).checkedSub amount = .ok x ∧
      s.getRaw contract (balanceKey c.info.sender) ≠ some (J.amount.toVec x) ∧
      c.gas.Affords (balanceGas J s contract c.info.sender x) ∧
      (¬ c.gas.Affords (balanceGas J s contract c.info.sender x + s.readGas contract keyInfo) ∨
        ∃ bytes info, s.getRaw contract keyInfo = some bytes ∧
          (J.info.fromSlice bytes).toOption = some info ∧
          ∀ supply, info.totalSupply.checkedSub amount = .ok supply →
            ¬ c.gas.Affords (balanceGas J s contract c.info.sender x +
              supplyGas J s contract { info with totalSupply := supply }))

variable {P J} {s : ContractStorage} {g : GasMeter} {env : Env} {info : MessageInfo}
    {R : ContractStorage → Prop}

theorem checkedSub_exists {a b : Amount} (h : ¬ a.atto < b.atto) : ∃ x, a.checkedSub b = .ok x := by
  rw [Amount.checkedSub, if_pos (Nat.le_of_not_lt h)]
  exact ⟨_, rfl⟩

theorem not_lt_of_checkedSub {a b x : Amount} (h : a.checkedSub b = .ok x) : ¬ a.atto < b.atto := by
  have hx := Amount.checkedSub_ok.mp h
  omega

/-- Three stops in a row, each of which costs more than the one before, are one:
the last. -/
theorem three_stops {first second third stopped later : Prop} (h₁ : second → first)
    (h₂ : third → second) (h₃ : later → third) :
    (¬ first ∧ stopped ∨ first ∧ (¬ second ∧ stopped ∨ second ∧ (¬ third ∧ stopped ∨ later))) ↔
      stopped ∧ ¬ third ∨ later := by
  tauto

/-- A failing transfer leaves the storage as it was, or the debit without the
credit. -/
theorem raises_transfer {source dest : Address} {amount : Amount} :
    Raises (performTransfer J env source dest amount) ⟨s, g⟩ (onErr R) ↔ amount.atto ≠ 0 ∧
      ((R s ∧ ∀ x y, (balanceAt J s env.contractAddress source).checkedSub amount = .ok x →
          (balanceAt J s env.contractAddress dest).checkedAdd amount = .ok y →
          ¬ g.Affords (debitGas J s env.contractAddress source dest x)) ∨
        ∃ x y, (balanceAt J s env.contractAddress source).checkedSub amount = .ok x ∧
          (balanceAt J s env.contractAddress dest).checkedAdd amount = .ok y ∧
          g.Affords (debitGas J s env.contractAddress source dest x) ∧
          ¬ g.Affords (transferGas J s env.contractAddress source dest x y) ∧
          R (s.setRaw env.contractAddress (balanceKey source) (J.amount.toVec x))) := by
  simp only [performTransfer, raises_ite, raises_pure, raises_bind, raises_get, returns_get,
    raises_fail, raises_arithmetic, returns_arithmetic, raises_set, returns_set, onErr_error,
    GasMeter.affords_after, GasMeter.after_after, and_false, false_or]
  have hsource : readAmount J (s.getRaw env.contractAddress (balanceKey source)) =
      balanceAt J s env.contractAddress source := rfl
  have hdest : readAmount J (s.getRaw env.contractAddress (balanceKey dest)) =
      balanceAt J s env.contractAddress dest := rfl
  have hzero : ¬ amount.isZero = true ↔ amount.atto ≠ 0 := by simp [Amount.isZero]
  have hread : g.Affords (s.readGas env.contractAddress (balanceKey source) +
      s.readGas env.contractAddress (balanceKey dest)) →
      g.Affords (s.readGas env.contractAddress (balanceKey source)) :=
    fun h => h.mono (Nat.le_add_right _ _)
  rw [hsource, hdest, hzero]
  refine and_congr_right (fun _ => ?_)
  cases hsub : (balanceAt J s env.contractAddress source).checkedSub amount with
  | error e =>
    have hlt : (balanceAt J s env.contractAddress source).atto < amount.atto := by
      by_contra hnot
      obtain ⟨x, hx⟩ := checkedSub_exists hnot
      rw [hsub] at hx
      cases hx
    simp only [hlt, reduceCtorEq, false_and, exists_false, not_true_eq_false, true_and, or_false,
      IsEmpty.forall_iff, implies_true, and_true]
    by_cases h₁ : g.Affords (s.readGas env.contractAddress (balanceKey source)) <;> simp [h₁]
  | ok x =>
    have hdebit : g.Affords (debitGas J s env.contractAddress source dest x) →
        g.Affords (s.readGas env.contractAddress (balanceKey source) +
          s.readGas env.contractAddress (balanceKey dest)) :=
      fun h => h.mono (Nat.le_add_right _ _)
    simp only [not_lt_of_checkedSub hsub, false_and, false_or, not_false_eq_true, true_and,
      reduceCtorEq, exists_false, Except.ok.injEq, exists_eq_left']
    cases hadd : (balanceAt J s env.contractAddress dest).checkedAdd amount with
    | error e =>
      simp only [reduceCtorEq, false_and, exists_false, or_false, IsEmpty.forall_iff, implies_true,
        and_true, Except.error.injEq, exists_eq_left']
      by_cases h₁ : g.Affords (s.readGas env.contractAddress (balanceKey source)) <;>
        by_cases h₂ : g.Affords (s.readGas env.contractAddress (balanceKey source) +
          s.readGas env.contractAddress (balanceKey dest)) <;> simp [h₁, h₂]
    | ok y =>
      simp only [reduceCtorEq, false_and, exists_false, false_or, Except.ok.injEq, exists_eq_left']
      refine (three_stops hread hdebit And.left).trans ?_
      constructor
      · rintro (⟨hr, hd⟩ | hcut)
        · exact .inl ⟨hr, by rintro _ _ rfl rfl; exact hd⟩
        · exact .inr ⟨x, y, rfl, rfl, hcut⟩
      · rintro (⟨hr, hd⟩ | ⟨_, _, rfl, rfl, hcut⟩)
        · exact .inl ⟨hr, hd x y rfl rfl⟩
        · exact .inr hcut

/-- What is left of an amount is not what is stored. -/
theorem stored_ne_left {contract : Address} {key : Bytes} {amount x : Amount}
    (hamount : amount.atto ≠ 0)
    (hx : (readAmount J (s.getRaw contract key)).checkedSub amount = .ok x) :
    s.getRaw contract key ≠ some (J.amount.toVec x) := by
  intro h
  have hsub := Amount.checkedSub_ok.mp hx
  rw [h, readAmount_toVec] at hsub
  omega

theorem torn_transfer {recipient : Address} {amount : Amount} :
    Raises (execute P J env info (.transfer recipient amount)) ⟨s, g⟩
      (onErr (fun t => ¬ Same t s)) ↔
      Torn J s ⟨env, info, g, .transfer recipient amount⟩ := by
  simp only [execute, raises_bind, raises_pure, not_returns_false, or_false, raises_transfer,
    same_refl, not_true_eq_false, false_and, false_or, same_setRaw_iff, Torn]
  refine and_congr_right (fun hamount => ?_)
  constructor
  · rintro ⟨x, y, hx, hy, hdebit, hall, -⟩
    exact ⟨x, y, hx, hy, hdebit, hall⟩
  · rintro ⟨x, y, hx, hy, hdebit, hall⟩
    exact ⟨x, y, hx, hy, hdebit, hall, stored_ne_left hamount hx⟩

theorem torn_approve {spender : Address} {amount : Amount} :
    Raises (execute P J env info (.approve spender amount)) ⟨s, g⟩ (onErr (fun t => ¬ Same t s)) ↔
      Torn J s ⟨env, info, g, .approve spender amount⟩ := by
  simp [execute, Torn, same_refl]

section OtherKeys
variable {contract : Address} {key : Bytes} (hkey : ¬ IsBalanceKey key) (value : Bytes)
include hkey

/-- Balances are read as before after a write under another kind of key. -/
theorem balanceAt_setOther (a : Address) :
    balanceAt J (s.setRaw contract key value) contract a = balanceAt J s contract a := by
  have hne : key ≠ balanceKey a := fun hk => hkey (hk ▸ isBalanceKey_balanceKey a)
  rw [balanceAt, balanceAt, getRaw_setRaw_ne _ _ (fun hk => hne hk.2)]

theorem readAmount_setOther (a : Address) :
    readAmount J ((s.setRaw contract key value).getRaw contract (balanceKey a)) =
      balanceAt J s contract a :=
  balanceAt_setOther hkey value a

theorem readGas_setOther (a : Address) :
    (s.setRaw contract key value).readGas contract (balanceKey a) =
      s.readGas contract (balanceKey a) :=
  readGas_setRaw_ne (fun hk => hkey (hk ▸ isBalanceKey_balanceKey a))

theorem debitGas_setOther (source dest : Address) (x : Amount) :
    debitGas J (s.setRaw contract key value) contract source dest x =
      debitGas J s contract source dest x := by
  rw [debitGas, readGas_setOther hkey, readGas_setOther hkey, debitGas]

theorem transferGas_setOther (source dest : Address) (x y : Amount) :
    transferGas J (s.setRaw contract key value) contract source dest x y =
      transferGas J s contract source dest x y := by
  rw [transferGas, debitGas_setOther hkey, transferGas]

end OtherKeys

theorem torn_transferFrom {owner recipient : Address} {amount : Amount} :
    Raises (execute P J env info (.transferFrom owner recipient amount)) ⟨s, g⟩
        (onErr (fun t => ¬ Same t s)) ↔
      Torn J s ⟨env, info, g, .transferFrom owner recipient amount⟩ := by
  have hkey := not_isBalanceKey_allowanceKey owner info.sender
  simp only [execute, raises_bind, raises_get, returns_get, raises_ite, raises_fail,
    raises_arithmetic, returns_arithmetic, raises_set, returns_set, raises_pure, not_returns_false,
    or_false, onErr_error, same_refl, not_true_eq_false, and_false, false_or, exists_false,
    raises_transfer, GasMeter.affords_after, GasMeter.after_after, balanceAt_setOther hkey,
    debitGas_setOther hkey, transferGas_setOther hkey, Torn]
  constructor
  · rintro ⟨-, -, left, hleft, hallow, hamount, ⟨-, hfail⟩ | ⟨x, y, hx, hy, -, hcut, -⟩⟩
    · refine ⟨hamount, left, hleft, hallow, fun x y hx hy hall => hfail x y hx hy ?_⟩
      exact hall.mono (Nat.add_le_add_left (Nat.le_add_right _ _) _)
    · refine ⟨hamount, left, hleft, hallow, fun x' y' hx' hy' => ?_⟩
      cases hx.symm.trans hx'
      cases hy.symm.trans hy'
      exact hcut
  · rintro ⟨hamount, left, hleft, hallow, hfail⟩
    have hne := stored_ne_left hamount hleft
    refine ⟨hallow.mono (Nat.le_add_right _ _), not_lt_of_checkedSub hleft, left, hleft, hallow,
      hamount, ?_⟩
    by_cases hdebit : ∃ x y, (balanceAt J s env.contractAddress owner).checkedSub amount = .ok x ∧
        (balanceAt J s env.contractAddress recipient).checkedAdd amount = .ok y ∧
        g.Affords (allowanceGas J s env.contractAddress owner info.sender left +
          debitGas J s env.contractAddress owner recipient x)
    · obtain ⟨x, y, hx, hy, hd⟩ := hdebit
      refine .inr ⟨x, y, hx, hy, hd, hfail x y hx hy, fun hsame => hne ?_⟩
      -- the allowance was written before the balance and is still there
      rw [← hsame env.contractAddress (allowanceKey owner info.sender),
        getRaw_setRaw_ne _ _ (fun hk => allowanceKey_ne_balanceKey owner info.sender owner
          hk.2.symm),
        getRaw_setRaw_self]
    · exact .inl ⟨fun hsame => hne (same_setRaw_iff.mp hsame),
        fun x y hx hy hd => hdebit ⟨x, y, hx, hy, hd⟩⟩

/-- A read, a check and a write that all have to succeed. -/
theorem cut_iff {A N : Prop} {x : Except TypeError Amount} {B : Amount → Prop}
    (hBA : ∀ a, B a → A) :
    (¬ A ∧ N ∨ A ∧ ((∃ e, x = .error e ∧ N) ∨ ∃ a, x = .ok a ∧ ¬ B a ∧ N)) ↔
      N ∧ ∀ a, x = .ok a → ¬ B a := by
  cases x with
  | error e =>
    simp only [Except.error.injEq, reduceCtorEq, false_and, exists_false, or_false, exists_eq_left',
      IsEmpty.forall_iff, implies_true, and_true]
    by_cases hA : A <;> simp [hA]
  | ok a =>
    simp only [reduceCtorEq, false_and, exists_false, false_or, Except.ok.injEq, exists_eq_left',
      forall_eq']
    by_cases hA : A
    · simp [hA, and_comm]
    · have hB : ¬ B a := fun h => hA (hBA a h)
      simp [hA, hB]

theorem torn_mint {recipient : Address} {amount : Amount} :
    Raises (execute P J env info (.mint recipient amount)) ⟨s, g⟩ (onErr (fun t => ¬ Same t s)) ↔
      Torn J s ⟨env, info, g, .mint recipient amount⟩ := by
  simp only [execute, raises_bind, raises_get, returns_get, raises_okOr, returns_okOr,
    raises_unwrap, returns_unwrap, raises_ite, raises_fail, raises_arithmetic, returns_arithmetic,
    raises_set, returns_set, raises_pure, onErr_error, onErr_panicked, same_refl, not_true_eq_false,
    and_false, false_or, or_false, exists_false, not_not, ne_eq, GasMeter.affords_after,
    GasMeter.after_after, same_setRaw_iff, readGas_setOther not_isBalanceKey_keyInfo,
    readAmount_setOther not_isBalanceKey_keyInfo, cut_iff (fun _ h => GasMeter.Affords.mono h
    (Nat.le_add_right _ _)), Torn]
  constructor
  · rintro ⟨-, bytes, hb, ti, hi, hminter, supply, hs, hsupply, hne, hfail⟩
    refine ⟨bytes, ti, supply, hb, hi, hminter, hs, fun h => hne (hb.trans (congrArg some h.symm)),
      hsupply, fun x hx hall => hfail x hx ?_⟩
    rwa [Nat.add_assoc]
  · rintro ⟨bytes, ti, supply, hb, hi, hminter, hs, hne, hsupply, hfail⟩
    refine ⟨hsupply.mono (Nat.le_add_right _ _), bytes, hb, ti, hi, hminter, supply, hs, hsupply,
      fun h => hne (Option.some.inj (hb.symm.trans h)).symm, fun x hx hall => hfail x hx ?_⟩
    rwa [Nat.add_assoc] at hall

theorem torn_burn {amount : Amount} :
    Raises (execute P J env info (.burn amount)) ⟨s, g⟩ (onErr (fun t => ¬ Same t s)) ↔
      Torn J s ⟨env, info, g, .burn amount⟩ := by
  have hkey := (keyInfo_ne_balanceKey info.sender).symm
  have hget : ∀ value, (s.setRaw env.contractAddress (balanceKey info.sender) value).getRaw
      env.contractAddress keyInfo = s.getRaw env.contractAddress keyInfo :=
    fun value => getRaw_setRaw_ne s value (fun hk => hkey hk.2)
  simp only [execute, raises_bind, raises_get, returns_get, raises_unwrap, returns_unwrap,
    raises_ite, raises_fail, raises_arithmetic, returns_arithmetic, raises_set, returns_set,
    raises_pure, onErr_error, onErr_panicked, same_refl, not_true_eq_false, and_false, false_or,
    or_false, exists_false, GasMeter.affords_after, GasMeter.after_after, same_setRaw_iff, hget,
    readGas_setRaw_ne hkey, Torn]
  constructor
  · rintro ⟨-, -, x, hx, hbal, ⟨hread, hne⟩ | ⟨hread, bytes, hb, ti, hi, hrest⟩⟩
    · exact ⟨x, hx, hne, hbal, .inl hread⟩
    · obtain ⟨hne, hfail⟩ :=
        (cut_iff (B := fun supply => g.Affords (balanceGas J s env.contractAddress
        info.sender x + s.readGas env.contractAddress keyInfo + writeGas keyInfo
        (J.info.toVec { ti with totalSupply := supply })))
        (fun _ h => h.mono (Nat.le_add_right _ _))).mp (.inr ⟨hread, hrest⟩)
      refine ⟨x, hx, hne, hbal, .inr ⟨bytes, ti, hb, hi, fun supply hs hall => hfail supply hs ?_⟩⟩
      rwa [Nat.add_assoc]
  · rintro ⟨x, hx, hne, hbal, hrest⟩
    refine ⟨hbal.mono (Nat.le_add_right _ _), not_lt_of_checkedSub hx, x, hx, hbal, ?_⟩
    by_cases hread : g.Affords (balanceGas J s env.contractAddress info.sender x +
        s.readGas env.contractAddress keyInfo)
    · obtain ⟨bytes, ti, hb, hi, hfail⟩ := hrest.resolve_left (fun h => h hread)
      refine .inr ⟨hread, bytes, hb, ti, hi, ?_⟩
      cases hs : ti.totalSupply.checkedSub amount with
      | error e => exact .inl ⟨e, rfl, hne⟩
      | ok supply =>
        refine .inr ⟨supply, rfl, fun hall => hfail supply hs ?_, hne⟩
        rwa [Nat.add_assoc] at hall
    · exact .inl ⟨hread, hne⟩

theorem torn_iff (c : Invocation TokenExecuteMsg) :
    Raises (execute P J c.env c.info c.msg) ⟨s, c.gas⟩ (onErr (fun t => ¬ Same t s)) ↔
      Torn J s c := by
  obtain ⟨env, info, g, msg⟩ := c
  cases msg with
  | transfer recipient amount => exact torn_transfer
  | transferFrom owner recipient amount => exact torn_transferFrom
  | approve spender amount => exact torn_approve
  | mint recipient amount => exact torn_mint
  | burn amount => exact torn_burn

end TokenContract

namespace GovernanceContract
variable (J : GovJson)

/-- The inputs at which a call fails after a write: the submission between counter
and proposal, the vote between tally and marker. -/
def Torn (s : ContractStorage) (c : Invocation GovExecuteMsg) : Prop :=
  let contract := c.env.contractAddress
  match c.msg with
  | .submitProposal title description =>
    ∃ config, storedConfig J s contract = some config ∧
      c.gas.Affords (counterGas J s contract config) ∧
      ¬ c.gas.Affords
        (submitGas J s contract config (newProposal c.env c.info config title description))
  | .castVote id option weight =>
    ∃ p, VoteOpen J s c.env c.info id weight p ∧
      c.gas.Affords (tallyGas J s c.env c.info id (addVote p weight option)) ∧
      ¬ c.gas.Affords (ballotGas J s c.env c.info id (addVote p weight option))
  | .tallyAndExecute _ => False

variable {P : Primitives} {J} {s : ContractStorage}

/-- A call that panics has not written anything. -/
theorem not_panicked_changed (c : Invocation GovExecuteMsg) :
    ¬ Raises (execute P J c.env c.info c.msg) ⟨s, c.gas⟩ (fun e w => e = .panicked ∧
      w.storage ≠ s) := by
  cases c.msg <;> simp [execute]

theorem raises_onErr_iff (c : Invocation GovExecuteMsg) :
    Raises (execute P J c.env c.info c.msg) ⟨s, c.gas⟩ (onErr (fun t => ¬ Same t s)) ↔
      Raises (execute P J c.env c.info c.msg) ⟨s, c.gas⟩ (fun _ w => w.storage ≠ s ∧
        ¬ Same w.storage s) := by
  constructor
  · rintro ⟨e, w, hrun, hq⟩
    cases e with
    | error e => exact ⟨_, w, hrun, fun h => hq (h ▸ same_refl s), hq⟩
    | panicked => exact hq.elim
  · rintro ⟨e, w, hrun, hne, hsame⟩
    cases e with
    | error e => exact ⟨_, w, hrun, hsame⟩
    | panicked => exact absurd ⟨_, w, hrun, rfl, hne⟩ (not_panicked_changed c)

theorem not_same_tallied {contract : Address} {id : UInt64} {p p' : Proposal}
    (hp : storedProposal J s contract id = some p) (hne : p' ≠ p) :
    ¬ Same (tallied J s contract id p') s := by
  intro hsame
  have hp' : storedProposal J (tallied J s contract id p') contract id = some p' :=
    (storedProposal_tallied id id p').trans (if_pos rfl)
  rw [storedProposal, hsame contract (proposalKey id)] at hp'
  exact hne (Option.some.inj (hp'.symm.trans hp))

theorem not_same_counted {contract : Address} {config : GovConfig}
    (hconfig : storedConfig J s contract = some config) :
      ¬ Same (counted J s contract config) s := by
  intro hsame
  rw [counted, same_setRaw_iff] at hsame
  rw [storedConfig, hsame] at hconfig
  have hcount := congrArg GovConfig.proposalCount (show _ = config by
    simpa [J.config.fromSlice_toVec, Except.toOption] using hconfig)
  simp at hcount

theorem torn_iff (c : Invocation GovExecuteMsg) :
    Raises (execute P J c.env c.info c.msg) ⟨s, c.gas⟩ (onErr (fun t => ¬ Same t s)) ↔
      Torn J s c := by
  rw [raises_onErr_iff]
  obtain ⟨env, info, g, msg⟩ := c
  cases msg with
  | submitProposal title description =>
    rw [raises_submit (R := fun t => ¬ Same t s)]
    constructor
    · rintro ⟨config, hconfig, hcounter, hall, -⟩
      exact ⟨config, hconfig, hcounter, hall⟩
    · rintro ⟨config, hconfig, hcounter, hall⟩
      have hsame := not_same_counted hconfig
      exact ⟨config, hconfig, hcounter, hall, fun h => hsame (h.symm ▸ same_refl s), hsame⟩
  | castVote id option weight =>
    rw [raises_vote (R := fun t => ¬ Same t s)]
    constructor
    · rintro ⟨p, hopen, htally, hall, -⟩
      exact ⟨p, hopen, htally, hall⟩
    · rintro ⟨p, hopen, htally, hall⟩
      have hne := addVote_ne (p := p) hopen.weight_ne option
      exact ⟨p, hopen, htally, hall, tallied_ne hopen.stored hne, not_same_tallied hopen.stored hne⟩
  | tallyAndExecute id => exact iff_of_false (not_raises_tally (R := fun t => ¬ Same t s)) not_false

end GovernanceContract

/-- A call of the token or the governance contract is atomic exactly where it is
not torn; a call of the escrow always is. -/
theorem calls_atomic_iff (P : Primitives) (JT : TokenJson) (JE : Json EscrowState) (JG : GovJson)
    (s : ContractStorage) :
    (∀ c, AtomicAt (TokenContract.execute P JT) s c ↔ ¬ TokenContract.Torn JT s c) ∧
    (∀ c, AtomicAt (EscrowContract.execute P JE) s c) ∧
    ∀ c, AtomicAt (GovernanceContract.execute P JG) s c ↔ ¬ GovernanceContract.Torn JG s c := by
  refine ⟨fun c => ?_, fun c => ?_, fun c => ?_⟩
  · rw [atomicAt_iff, TokenContract.torn_iff]
  · refine atomicAt_iff.mpr
      (fun h => EscrowContract.storage_of_raises P (h.mono (fun e w hq => ?_)))
    cases e with
    | error e => exact fun hs => hq (hs.symm ▸ same_refl s)
    | panicked => exact hq.elim
  · rw [atomicAt_iff, GovernanceContract.torn_iff]

/-- A failing call after which one key reads differently. -/
theorem not_atomicAt_of {μ : Type} {execute : Env → MessageInfo → μ → Exec ContractResponse}
    {s : ContractStorage} {c : Invocation μ} {e : ContractError} (contract : Address) (key : Bytes)
    (he : (invoke execute s c).2 = .error (.error e))
    (hkey : (invoke execute s c).1.getRaw contract key ≠ s.getRaw contract key) :
      ¬ AtomicAt execute s c :=
  fun h => hkey (h e he contract key)

open Devnet Runs in
/-- With a gas limit of 1000 a transfer of 40 out of 100 debits the sender and fails before the
credit; with one of 1400 a vote is tallied and fails before it is marked. -/
theorem cut_calls_not_atomic :
    ¬ AtomicAt (TokenContract.execute primitives TokenContract.devJson)
      (TokenContract.devInstantiate TokenContract.devBalances).1
      ⟨TokenContract.devEnv, ⟨TokenContract.devAddress 1, Amount.zero⟩, .new 1000,
        .transfer (TokenContract.devAddress 2) (units 40)⟩ ∧
    ¬ AtomicAt (GovernanceContract.execute primitives GovernanceContract.devJson)
      (run (GovernanceContract.step primitives GovernanceContract.devJson)
        (GovernanceContract.devInstantiate.1, []) (GovernanceContract.cutCalls.take 1)).1
      (GovernanceContract.devCall 1 1400 (.castVote 1 .yes 3)) := by
  constructor
  · exact not_atomicAt_of Address.zero (TokenContract.balanceKey (TokenContract.devAddress 1))
      (e := .outOfGas 1000 1349) (by decide +kernel) (by decide +kernel)
  · exact not_atomicAt_of Address.zero (GovernanceContract.proposalKey 1)
      (e := .outOfGas 1400 1475) (by decide +kernel) (by decide +kernel)

end Sprax.Wasm
