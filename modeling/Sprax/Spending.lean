import Sprax.Supply

/-!
# Who spends whose tokens

A call may stop between its writes, so its end is described by the storages in which it
can stop. Whatever a call does, it takes from nobody but its sender, or from the owner of
a `TransferFrom` within the allowance; the allowance is lowered before the balance. What
is left of an allowance and what was spent of it since it was set therefore never exceed
what was approved, in any run of calls and however these end.
-/
namespace Sprax.Wasm.TokenContract
open Std FiniteMap Effects Runs ContractStorage

variable (P : Primitives) (J : TokenJson)

/-- The stored allowance, in atomic units. -/
def allowanceOf (s : ContractStorage) (contract owner spender : Address) : ℕ :=
  (readAmount J (s.getRaw contract (allowanceKey owner spender))).atto

/-- The storages in which a transfer can stop. -/
inductive Moving (contract source dest : Address) (amount : Amount) (s : ContractStorage) :
    ContractStorage → Prop
  | untouched : Moving contract source dest amount s s
  | debited (x : Amount) (hx : x.atto + amount.atto = balanceOf J s contract source) :
      Moving contract source dest amount s
        (s.setRaw contract (balanceKey source) (J.amount.toVec x))
  | moved (x y : Amount) (hx : x.atto + amount.atto = balanceOf J s contract source)
      (hy : y.atto = balanceOf J s contract dest + amount.atto) :
      Moving contract source dest amount s
        ((s.setRaw contract (balanceKey source) (J.amount.toVec x)).setRaw contract
          (balanceKey dest) (J.amount.toVec y))

/-- The storages in which a call can stop. -/
inductive Ended (contract sender : Address) (s : ContractStorage) :
    TokenExecuteMsg → ContractStorage → Prop
  | untouched {msg} : Ended contract sender s msg s
  | transfer {recipient amount t} (h : Moving J contract sender recipient amount s t) :
      Ended contract sender s (.transfer recipient amount) t
  | transferFrom {owner recipient amount t} (left : Amount)
      (hleft : left.atto + amount.atto = allowanceOf J s contract owner sender)
      (h : Moving J contract owner recipient amount
        (s.setRaw contract (allowanceKey owner sender) (J.amount.toVec left)) t) :
      Ended contract sender s (.transferFrom owner recipient amount) t
  | approve {spender amount} :
      Ended contract sender s (.approve spender amount)
        (s.setRaw contract (allowanceKey sender spender) (J.amount.toVec amount))
  | supplied {recipient amount} (info : Bytes) :
      Ended contract sender s (.mint recipient amount) (s.setRaw contract keyInfo info)
  | minted {recipient amount} (info : Bytes) (bal : Amount)
      (hbal : bal.atto = balanceOf J s contract recipient + amount.atto) :
      Ended contract sender s (.mint recipient amount)
        ((s.setRaw contract keyInfo info).setRaw contract (balanceKey recipient)
          (J.amount.toVec bal))
  | debited {amount} (bal : Amount) :
      Ended contract sender s (.burn amount)
        (s.setRaw contract (balanceKey sender) (J.amount.toVec bal))
  | burned {amount} (bal : Amount) (info : Bytes) :
      Ended contract sender s (.burn amount)
        ((s.setRaw contract (balanceKey sender) (J.amount.toVec bal)).setRaw contract keyInfo info)

variable {J} {s : ContractStorage} {contract : Address}

theorem moving_of_ends {env : Env} {source dest : Address} {amount : Amount} {g : GasMeter}
    {Q : World → Prop} (h : Ends (performTransfer J env source dest amount) ⟨s, g⟩ Q) :
    ∃ t g', Moving J env.contractAddress source dest amount s t ∧ Q ⟨t, g'⟩ := by
  simp only [performTransfer, ends_ite, ends_pure, ends_bind, raises_get, returns_get, ends_fail,
    raises_arithmetic, returns_arithmetic, raises_set, returns_set, ends_set] at h
  rcases h with ⟨-, hq⟩ | ⟨-, ⟨-, hq⟩ | ⟨-, ⟨-, hq⟩ | ⟨-, ⟨-, hq⟩ | ⟨-, h⟩⟩⟩⟩
  · exact ⟨s, _, .untouched, hq⟩
  · exact ⟨s, _, .untouched, hq⟩
  · exact ⟨s, _, .untouched, hq⟩
  · exact ⟨s, _, .untouched, hq⟩
  rcases h with ⟨e, -, hq⟩ | ⟨x, hx, ⟨e, -, hq⟩ | ⟨y, hy, ⟨-, hq⟩ | ⟨-, ⟨-, hq⟩ | ⟨-, hq⟩⟩⟩⟩
  · exact ⟨s, _, .untouched, hq⟩
  · exact ⟨s, _, .untouched, hq⟩
  · exact ⟨s, _, .untouched, hq⟩
  · exact ⟨_, _, .moved x y (Amount.checkedSub_ok.mp hx) (Amount.checkedAdd_ok.mp hy), hq⟩
  · exact ⟨_, _, .debited x (Amount.checkedSub_ok.mp hx), hq⟩

/-- The response does not change the storage. -/
theorem ends_respond {α : Type} (p : Exec α) (r : ContractResponse) (w : World) (Q : World → Prop) :
    Ends (p >>= fun _ => pure r) w Q ↔ Ends p w Q := by
  rw [ends_bind]
  simp only [ends_pure]
  exact or_comm

theorem ended_mint {env : Env} {info : MessageInfo} {recipient : Address} {amount : Amount}
    {g : GasMeter} {Q : World → Prop}
    (h : Ends (execute P J env info (.mint recipient amount)) ⟨s, g⟩ Q) :
    ∃ t g', Ended J env.contractAddress info.sender s (.mint recipient amount) t ∧ Q ⟨t, g'⟩ := by
  simp only [execute, ends_bind, raises_get, returns_get, raises_okOr, returns_okOr, raises_unwrap,
    returns_unwrap, ends_ite, ends_fail, raises_arithmetic, returns_arithmetic, raises_set,
    returns_set, ends_pure] at h
  rcases h with ⟨-, hq⟩ | ⟨-, ⟨-, hq⟩ | ⟨bytes, -, ⟨-, hq⟩ | ⟨ti, -, ⟨-, hq⟩ | ⟨-, h⟩⟩⟩⟩
  · exact ⟨s, _, .untouched, hq⟩
  · exact ⟨s, _, .untouched, hq⟩
  · exact ⟨s, _, .untouched, hq⟩
  · exact ⟨s, _, .untouched, hq⟩
  rcases h with ⟨e, -, hq⟩ | ⟨supply, -, ⟨-, hq⟩ | ⟨-, ⟨-, hq⟩ | ⟨-, ⟨e, -, hq⟩ | ⟨bal, hbal, h⟩⟩⟩⟩
  · exact ⟨s, _, .untouched, hq⟩
  · exact ⟨s, _, .untouched, hq⟩
  · exact ⟨_, _, .supplied _, hq⟩
  · exact ⟨_, _, .supplied _, hq⟩
  rcases h with ⟨-, hq⟩ | ⟨-, hq⟩
  · exact ⟨_, _, .supplied _, hq⟩
  · refine ⟨_, _, .minted _ bal ?_, hq⟩
    rw [← balanceOf_setOther not_isBalanceKey_keyInfo]
    exact Amount.checkedAdd_ok.mp hbal

theorem ended_burn {env : Env} {info : MessageInfo} {amount : Amount} {g : GasMeter}
    {Q : World → Prop} (h : Ends (execute P J env info (.burn amount)) ⟨s, g⟩ Q) :
    ∃ t g', Ended J env.contractAddress info.sender s (.burn amount) t ∧ Q ⟨t, g'⟩ := by
  simp only [execute, ends_bind, raises_get, returns_get, raises_unwrap, returns_unwrap, ends_ite,
    ends_fail, raises_arithmetic, returns_arithmetic, raises_set, returns_set, ends_pure] at h
  rcases h with ⟨-, hq⟩ | ⟨-, ⟨-, hq⟩ | ⟨-, ⟨e, -, hq⟩ | ⟨bal, -, ⟨-, hq⟩ | ⟨-, h⟩⟩⟩⟩
  · exact ⟨s, _, .untouched, hq⟩
  · exact ⟨s, _, .untouched, hq⟩
  · exact ⟨s, _, .untouched, hq⟩
  · exact ⟨s, _, .untouched, hq⟩
  rcases h with ⟨-, hq⟩ | ⟨-, ⟨-, hq⟩ | ⟨bytes, -, ⟨-, hq⟩ | ⟨ti, -, ⟨e, -, hq⟩ | ⟨supply, -, h⟩⟩⟩⟩
  · exact ⟨_, _, .debited bal, hq⟩
  · exact ⟨_, _, .debited bal, hq⟩
  · exact ⟨_, _, .debited bal, hq⟩
  · exact ⟨_, _, .debited bal, hq⟩
  rcases h with ⟨-, hq⟩ | ⟨-, hq⟩
  · exact ⟨_, _, .debited bal, hq⟩
  · exact ⟨_, _, .burned bal _, hq⟩

theorem ended_of_ends {env : Env} {info : MessageInfo} {msg : TokenExecuteMsg} {g : GasMeter}
    {Q : World → Prop} (h : Ends (execute P J env info msg) ⟨s, g⟩ Q) :
    ∃ t g', Ended J env.contractAddress info.sender s msg t ∧ Q ⟨t, g'⟩ := by
  cases msg with
  | transfer recipient amount =>
    rw [execute, ends_respond] at h
    obtain ⟨t, g', hm, hq⟩ := moving_of_ends h
    exact ⟨t, g', .transfer hm, hq⟩
  | transferFrom owner recipient amount =>
    simp only [execute, ends_bind, raises_get, returns_get, ends_ite, ends_fail, raises_arithmetic,
      returns_arithmetic, raises_set, returns_set, ends_pure] at h
    rcases h with ⟨-, hq⟩ | ⟨-, ⟨-, hq⟩ | ⟨-, ⟨e, -, hq⟩ | ⟨left, hleft, ⟨-, hq⟩ | ⟨-, h⟩⟩⟩⟩
    · exact ⟨s, _, .untouched, hq⟩
    · exact ⟨s, _, .untouched, hq⟩
    · exact ⟨s, _, .untouched, hq⟩
    · exact ⟨s, _, .untouched, hq⟩
    · obtain ⟨t, g', hm, hq⟩ := moving_of_ends h.symm
      exact ⟨t, g', .transferFrom left (Amount.checkedSub_ok.mp hleft) hm, hq⟩
  | approve spender amount =>
    rw [execute, ends_respond, ends_set] at h
    rcases h with ⟨-, hq⟩ | ⟨-, hq⟩
    · exact ⟨_, _, .approve, hq⟩
    · exact ⟨s, _, .untouched, hq⟩
  | mint recipient amount => exact ended_mint P h
  | burn amount => exact ended_burn P h

/-- What a call leaves behind, however it ends. -/
theorem ended_call (s : ContractStorage) (c : Invocation TokenExecuteMsg) :
    Ended J c.env.contractAddress c.info.sender s c.msg (call P J s c) := by
  obtain ⟨t, g', hended, ht⟩ :=
    ended_of_ends P (ends_finish (execute P J c.env c.info c.msg) ⟨s, c.gas⟩)
  have hcall : t = call P J s c := ht
  rw [← hcall]
  exact hended

theorem allowanceKey_inj {o p o' p' : Address} (h : allowanceKey o p = allowanceKey o' p') :
    o = o' ∧ p = p' := by
  simp only [allowanceKey, List.append_assoc, List.append_cancel_left_eq] at h
  have howner : o.bytes.length = o'.bytes.length := by rw [o.length_eq, o'.length_eq]
  obtain ⟨hown, hrest⟩ := List.append_inj h howner
  exact ⟨Address.ext_bytes hown, Address.ext_bytes (List.append_cancel_left hrest)⟩

theorem allowanceOf_setOther {key : Bytes} {owner spender : Address}
    (hkey : key ≠ allowanceKey owner spender) (value : Bytes) :
    allowanceOf J (s.setRaw contract key value) contract owner spender =
      allowanceOf J s contract owner spender := by
  unfold allowanceOf
  rw [getRaw_setRaw_ne _ _ (fun h => hkey h.2)]

theorem allowanceOf_setBalance (a owner spender : Address) (value : Bytes) :
    allowanceOf J (s.setRaw contract (balanceKey a) value) contract owner spender =
      allowanceOf J s contract owner spender :=
  allowanceOf_setOther (allowanceKey_ne_balanceKey owner spender a).symm value

@[simp] theorem allowanceOf_setAllowance_self (owner spender : Address) (x : Amount) :
    allowanceOf J (s.setRaw contract (allowanceKey owner spender) (J.amount.toVec x)) contract owner
      spender = x.atto := by
  rw [allowanceOf, getRaw_setRaw_self, readAmount_toVec]

namespace Moving
variable {source dest : Address} {amount : Amount} {t : ContractStorage}

/-- Only the source of a transfer loses, and no more than the amount. -/
theorem balanceOf_le (h : Moving J contract source dest amount s t) (a : Address) :
    balanceOf J s contract a ≤ balanceOf J t contract a + if a =
      source then amount.atto else 0 := by
  cases h with
  | untouched => exact Nat.le_add_right _ _
  | debited x hx =>
    rw [balanceOf_setBalance]
    by_cases ha : source = a
    · subst ha
      simp only [if_true]
      omega
    · rw [if_neg ha]
      exact Nat.le_add_right _ _
  | moved x y hx hy =>
    rw [balanceOf_setBalance, balanceOf_setBalance]
    by_cases hdest : dest = a
    · subst hdest
      rw [if_pos rfl]
      omega
    · rw [if_neg hdest]
      by_cases ha : source = a
      · subst ha
        simp only [if_true]
        omega
      · rw [if_neg ha]
        exact Nat.le_add_right _ _

theorem allowanceOf_eq (h : Moving J contract source dest amount s t) (owner spender : Address) :
    allowanceOf J t contract owner spender = allowanceOf J s contract owner spender := by
  cases h with
  | untouched => rfl
  | debited x hx => exact allowanceOf_setBalance _ _ _ _
  | moved x y hx hy => rw [allowanceOf_setBalance, allowanceOf_setBalance]

theorem frame (h : Moving J contract source dest amount s t) {other : Address}
    (hne : contract ≠ other) (key : Bytes) : t.getRaw other key = s.getRaw other key := by
  cases h with
  | untouched => rfl
  | debited x hx => rw [getRaw_setRaw_ne _ _ (fun h => hne h.1)]
  | moved x y hx hy =>
    rw [getRaw_setRaw_ne _ _ (fun h => hne h.1), getRaw_setRaw_ne _ _ (fun h => hne h.1)]

end Moving

namespace Ended
variable {sender : Address} {msg : TokenExecuteMsg} {t : ContractStorage}

/-- A call of one contract leaves the others alone. -/
theorem frame (h : Ended J contract sender s msg t) {other : Address} (hne : contract ≠ other)
    (key : Bytes) : t.getRaw other key = s.getRaw other key := by
  have hset : ∀ (u : ContractStorage) (k v : Bytes),
      (u.setRaw contract k v).getRaw other key = u.getRaw other key :=
    fun u k v => getRaw_setRaw_ne u v (fun h => hne h.1)
  cases h with
  | untouched => rfl
  | transfer h => exact h.frame hne key
  | transferFrom left hleft h => rw [h.frame hne key, hset]
  | approve => exact hset _ _ _
  | supplied info => exact hset _ _ _
  | minted info bal hbal => rw [hset, hset]
  | debited bal => exact hset _ _ _
  | burned bal info => rw [hset, hset]

/-- What an address that did not send the call can lose by it. -/
theorem balanceOf_le (h : Ended J contract sender s msg t) {a : Address} (ha : a ≠ sender) :
    balanceOf J s contract a ≤ balanceOf J t contract a ∨
      ∃ recipient amount, msg = .transferFrom a recipient amount ∧
        amount.atto ≤ allowanceOf J s contract a sender ∧
        balanceOf J s contract a ≤ balanceOf J t contract a + amount.atto := by
  cases h with
  | untouched => exact .inl le_rfl
  | transfer h =>
    have hle := h.balanceOf_le a
    rw [if_neg ha] at hle
    exact .inl hle
  | @transferFrom owner recipient amount t left hleft h =>
    have hle := h.balanceOf_le a
    rw [balanceOf_setOther (not_isBalanceKey_allowanceKey owner sender)] at hle
    by_cases hown : a = owner
    · subst hown
      rw [if_pos rfl] at hle
      exact .inr ⟨recipient, amount, rfl, by omega, hle⟩
    · rw [if_neg hown] at hle
      exact .inl hle
  | approve => exact .inl (balanceOf_setOther (not_isBalanceKey_allowanceKey _ _) _ a).ge
  | supplied info => exact .inl (balanceOf_setOther not_isBalanceKey_keyInfo _ a).ge
  | @minted recipient amount info bal hbal =>
    rw [balanceOf_setBalance, balanceOf_setOther not_isBalanceKey_keyInfo]
    by_cases hrec : recipient = a
    · subst hrec
      rw [if_pos rfl]
      exact .inl (by omega)
    · rw [if_neg hrec]
      exact .inl le_rfl
  | debited bal =>
    rw [balanceOf_setBalance, if_neg ha.symm]
    exact .inl le_rfl
  | burned bal info =>
    rw [balanceOf_setOther not_isBalanceKey_keyInfo, balanceOf_setBalance, if_neg ha.symm]
    exact .inl le_rfl

/-- An allowance grows by an approval of its owner only. -/
theorem allowanceOf_le (h : Ended J contract sender s msg t) {owner spender : Address}
    (happrove : ∀ amount, ¬ (sender = owner ∧ msg = .approve spender amount)) :
    allowanceOf J t contract owner spender ≤ allowanceOf J s contract owner spender := by
  cases h with
  | untouched => exact le_rfl
  | transfer h => exact (h.allowanceOf_eq owner spender).le
  | @transferFrom o recipient amount t left hleft h =>
    rw [h.allowanceOf_eq]
    by_cases hkey : allowanceKey o sender = allowanceKey owner spender
    · obtain ⟨rfl, rfl⟩ := allowanceKey_inj hkey
      rw [allowanceOf_setAllowance_self]
      omega
    · exact (allowanceOf_setOther hkey _).le
  | @approve p amount =>
    by_cases hkey : allowanceKey sender p = allowanceKey owner spender
    · obtain ⟨rfl, rfl⟩ := allowanceKey_inj hkey
      exact absurd ⟨rfl, rfl⟩ (happrove amount)
    · exact (allowanceOf_setOther hkey _).le
  | supplied info => exact (allowanceOf_setOther (allowanceKey_ne_keyInfo _ _).symm _).le
  | minted info bal hbal =>
    rw [allowanceOf_setBalance]
    exact (allowanceOf_setOther (allowanceKey_ne_keyInfo _ _).symm _).le
  | debited bal => exact (allowanceOf_setBalance _ _ _ _).le
  | burned bal info =>
    rw [allowanceOf_setOther (allowanceKey_ne_keyInfo _ _).symm, allowanceOf_setBalance]

/-- What a `TransferFrom` takes from an address comes off the allowance. -/
theorem spends (h : Ended J contract sender s msg t) {o recipient : Address} {amount : Amount}
    (hmsg : msg = .transferFrom o recipient amount) (owner : Address) :
    balanceOf J s contract owner - balanceOf J t contract owner + allowanceOf J t contract owner
      sender ≤ allowanceOf J s contract owner sender := by
  subst hmsg
  cases h with
  | untouched => omega
  | transferFrom left hleft h =>
    have hle := h.balanceOf_le owner
    rw [balanceOf_setOther (not_isBalanceKey_allowanceKey o sender)] at hle
    rw [h.allowanceOf_eq]
    by_cases hown : owner = o
    · subst hown
      rw [if_pos rfl] at hle
      rw [allowanceOf_setAllowance_self]
      omega
    · rw [if_neg hown] at hle
      have hkey : allowanceKey o sender ≠ allowanceKey owner sender :=
        fun hkey => hown (allowanceKey_inj hkey).1.symm
      rw [allowanceOf_setOther hkey]
      omega

end Ended

/-- A successful approval. -/
def Approves (J : TokenJson) (contract owner spender : Address) (amount : Amount)
    (s : ContractStorage) (c : Invocation TokenExecuteMsg) : Prop :=
  ReturnsOk P J contract s c ∧ c.info.sender = owner ∧ c.msg = .approve spender amount

/-- Not a successful approval, of any amount. -/
def Unapproved (J : TokenJson) (contract owner spender : Address) (s : ContractStorage)
    (c : Invocation TokenExecuteMsg) : Prop :=
  ∀ amount, ¬ Approves P J contract owner spender amount s c

def TokenExecuteMsg.isTransferFrom : TokenExecuteMsg → Bool
  | .transferFrom _ _ _ => true
  | _ => false

/-- What the spender's `TransferFrom` calls of a run take from the owner in all. -/
def spent (J : TokenJson) (contract owner spender : Address) :
    ContractStorage → List (Invocation TokenExecuteMsg) → ℕ
  | _, [] => 0
  | s, c :: rest =>
    (if c.info.sender = spender ∧ TokenExecuteMsg.isTransferFrom c.msg then
      balanceOf J s contract owner - balanceOf J (call P J s c) contract owner else 0) +
    spent J contract owner spender (call P J s c) rest

variable {P}

theorem Approves.allowanceOf_eq {owner spender : Address} {amount : Amount}
    {c : Invocation TokenExecuteMsg} (h : Approves P J contract owner spender amount s c) :
    allowanceOf J (call P J s c) contract owner spender = amount.atto := by
  obtain ⟨hok, rfl, hmsg⟩ := h
  have hexecuted := ReturnsOk.executed P hok
  rw [hmsg] at hexecuted
  generalize call P J s c = t at hexecuted
  cases hexecuted
  exact allowanceOf_setAllowance_self _ _ _

/-- An approval that fails writes nothing. -/
theorem call_of_failed_approve {c : Invocation TokenExecuteMsg} {spender : Address}
    {amount : Amount} (hmsg : c.msg = .approve spender amount)
    (hfail : ¬ (invoke (execute P J) s c).2.isOk) :
    call P J s c = s := by
  rcases invoke_cases (execute P J) s c with ⟨r, hr, -⟩ | ⟨e, -, hraises⟩
  · rw [hr] at hfail
    exact absurd rfl hfail
  · rw [hmsg] at hraises
    simp only [execute, raises_bind, raises_set, returns_set, raises_pure, and_false,
      or_false] at hraises
    exact hraises.2.2.symm

/-- One call: what it takes for the spender comes off the allowance. -/
theorem step_spent {owner spender : Address} {c : Invocation TokenExecuteMsg}
    (h : Unapproved P J contract owner spender s c) :
    (if c.info.sender = spender ∧ TokenExecuteMsg.isTransferFrom c.msg then
      balanceOf J s contract owner - balanceOf J (call P J s c) contract owner else 0) +
      allowanceOf J (call P J s c) contract owner spender ≤
        allowanceOf J s contract owner spender := by
  have hended := ended_call P (J := J) s c
  by_cases hcontract : c.env.contractAddress = contract
  · subst hcontract
    split
    · rename_i hspends
      obtain ⟨rfl, hfrom⟩ := hspends
      cases hmsg : c.msg with
      | transferFrom o recipient amount => exact hended.spends hmsg owner
      | _ => rw [hmsg] at hfrom; cases hfrom
    · rw [Nat.zero_add]
      by_cases happrove : ∃ amount, c.info.sender = owner ∧ c.msg = .approve spender amount
      · obtain ⟨amount, hsender, hmsg⟩ := happrove
        have hfail : ¬ (invoke (execute P J) s c).2.isOk :=
          fun hok => h amount ⟨⟨rfl, hok⟩, hsender, hmsg⟩
        rw [call_of_failed_approve hmsg hfail]
      · exact hended.allowanceOf_le (fun amount hboth => happrove ⟨amount, hboth⟩)
  · have hsame := hended.frame hcontract
    simp only [balanceOf, allowanceOf, hsame, Nat.sub_self, ite_self, Nat.zero_add]
    exact Nat.le_refl _

/-- What was spent and what is left are within the allowance at the start. -/
theorem spent_le {owner spender : Address} {calls : List (Invocation TokenExecuteMsg)}
    (h : Along (Unapproved P J contract owner spender) (call P J) s calls) :
    spent P J contract owner spender s calls +
      allowanceOf J (run (call P J) s calls) contract owner spender ≤
        allowanceOf J s contract owner spender := by
  induction calls generalizing s with
  | nil => simp [spent]
  | cons c rest ih =>
    have hstep := step_spent h.1
    have hrest := ih h.2
    rw [spent, run_cons]
    omega

/-- The loop over the initial balances sets no allowance. -/
theorem creditInitial_allowances {env : Env} {l : List InitialBalance} {total : Amount}
    {g : GasMeter} {Q : World → Prop} (h : Ends (creditInitial J env l total) ⟨s, g⟩ Q) :
    ∃ t g', (∀ owner spender, allowanceOf J t env.contractAddress owner spender =
      allowanceOf J s env.contractAddress owner spender) ∧ Q ⟨t, g'⟩ := by
  induction l generalizing s total g with
  | nil => exact ⟨s, g, fun _ _ => rfl, by simpa [creditInitial] using h⟩
  | cons ib rest ih =>
    simp only [creditInitial, ends_bind, raises_arithmetic, returns_arithmetic, raises_set,
      returns_set] at h
    rcases h with ⟨e, -, hq⟩ | ⟨total', -, ⟨-, hq⟩ | ⟨-, h⟩⟩
    · exact ⟨s, _, fun _ _ => rfl, hq⟩
    · exact ⟨s, _, fun _ _ => rfl, hq⟩
    · obtain ⟨t, g', hsame, hq⟩ := ih h
      exact ⟨t, g', fun o p => (hsame o p).trans (allowanceOf_setBalance _ _ _ _), hq⟩

theorem instantiate_allowances {env : Env} {info : MessageInfo} {name symbol : String}
    {decimals : UInt8} {initialBalances : List InitialBalance} {minter : Option Address}
    {g : GasMeter} (owner spender : Address) :
    allowanceOf J (finish (instantiate P J env info name symbol decimals initialBalances minter
      ⟨.new, g⟩)).1 env.contractAddress owner spender = 0 := by
  have hnew : allowanceOf J .new env.contractAddress owner spender = 0 := by
    simp [allowanceOf, ContractStorage.getRaw, ContractStorage.new, readAmount, Amount.zero]
  have hends := ends_finish (instantiate P J env info name symbol decimals initialBalances minter)
    ⟨.new, g⟩
  generalize (finish (instantiate P J env info name symbol decimals initialBalances minter
    ⟨.new, g⟩)).1 = u at hends ⊢
  -- The call stops in the loop, or after the token record was written.
  have hloop : Ends (creditInitial J env initialBalances Amount.zero) ⟨.new, g⟩ (fun w =>
      w.storage = u ∨ ∃ value, w.storage.setRaw env.contractAddress keyInfo value = u) := by
    rw [instantiate, ends_bind] at hends
    rcases hends with hraises | hreturns
    · exact .inr (hraises.mono (fun _ _ h => .inl h))
    · refine .inl (hreturns.mono (fun supply w h => ?_))
      rw [ends_respond, ends_set] at h
      rcases h with ⟨-, h⟩ | ⟨-, h⟩
      · exact .inr ⟨_, h⟩
      · exact .inl h
  obtain ⟨t, g', hsame, rfl | ⟨value, rfl⟩⟩ := creditInitial_allowances hloop
  · exact (hsame owner spender).trans hnew
  · rw [allowanceOf_setOther (allowanceKey_ne_keyInfo owner spender).symm]
    exact (hsame owner spender).trans hnew

/-- Spending is authorised. Take any storage that a contract reaches by instantiation and
calls, successful or not. A call takes from another address than its sender only as a
`TransferFrom` of that owner within the allowance, and at most the amount. The calls of a
spender take nothing before the first successful approval, and after one at most the
approved amount until there is another. -/
theorem spending_authorised (env : Env) (info : MessageInfo) (name symbol : String)
    (decimals : UInt8) (initialBalances : List InitialBalance) (minter : Option Address)
    (g : GasMeter) (calls : List (Invocation TokenExecuteMsg)) :
    let contract := env.contractAddress
    let start := (finish (instantiate P J env info name symbol decimals initialBalances minter
      ⟨.new, g⟩)).1
    let s := run (call P J) start calls
    (∀ c a, a ≠ c.info.sender → balanceOf J (call P J s c) contract a < balanceOf J s contract a →
      ∃ recipient amount, c.msg = .transferFrom a recipient amount ∧
        amount.atto ≤ allowanceOf J s contract a c.info.sender ∧
        balanceOf J s contract a - balanceOf J (call P J s c) contract a ≤ amount.atto) ∧
    (∀ owner spender, Along (Unapproved P J contract owner spender) (call P J) start calls →
      spent P J contract owner spender start calls = 0) ∧
    ∀ c owner spender amount later, Approves P J contract owner spender amount s c →
      Along (Unapproved P J contract owner spender) (call P J) (call P J s c) later →
      spent P J contract owner spender (call P J s c) later ≤ amount.atto := by
  intro contract start s
  refine ⟨fun c a ha hless => ?_, fun owner spender halong => ?_, ?_⟩
  · have hended := ended_call P (J := J) s c
    by_cases hcontract : c.env.contractAddress = contract
    · rw [hcontract] at hended
      rcases hended.balanceOf_le ha with hle | ⟨recipient, amount, hmsg, hallowed, hle⟩
      · omega
      · exact ⟨recipient, amount, hmsg, hallowed, by omega⟩
    · simp only [balanceOf, hended.frame hcontract] at hless
      omega
  · have hspent := spent_le halong
    have hnone : allowanceOf J start contract owner spender = 0 :=
      instantiate_allowances owner spender
    omega
  · intro c owner spender amount later happroves halong
    have hspent := spent_le halong
    rw [happroves.allowanceOf_eq] at hspent
    omega

/-- A call of the address with the given last byte. -/
def callBy (n : UInt8) (msg : TokenExecuteMsg) : Invocation TokenExecuteMsg :=
  ⟨devEnv, ⟨devAddress n, Amount.zero⟩, .new 100000, msg⟩

/-- Address 2 draws 30 and then 30 again. -/
def draws : List (Invocation TokenExecuteMsg) :=
  [callBy 2 (.transferFrom (devAddress 1) (devAddress 3) (Devnet.units 30)),
    callBy 2 (.transferFrom (devAddress 1) (devAddress 3) (Devnet.units 30))]

/-- Address 1 lets address 2 draw 50. -/
def approval : Invocation TokenExecuteMsg := callBy 1 (.approve (devAddress 2) (Devnet.units 50))

theorem spending_authorised_devnet :
    let start := (devInstantiate devBalances).1
    let approved := call Devnet.primitives devJson start approval
    Approves Devnet.primitives devJson devEnv.contractAddress (devAddress 1) (devAddress 2)
      (Devnet.units 50) start approval ∧
    spent Devnet.primitives devJson devEnv.contractAddress (devAddress 1) (devAddress 2) approved
      draws = 30 ∧
    spent Devnet.primitives devJson devEnv.contractAddress (devAddress 1) (devAddress 2) approved
      draws ≤ (Devnet.units 50).atto := by
  intro start approved
  have happroves : Approves Devnet.primitives devJson devEnv.contractAddress (devAddress 1)
      (devAddress 2) (Devnet.units 50) start approval := ⟨by decide +kernel, rfl, rfl⟩
  have halong : Along (Unapproved Devnet.primitives devJson devEnv.contractAddress (devAddress 1)
      (devAddress 2)) (call Devnet.primitives devJson) approved draws := by
    refine ⟨fun amount h => ?_, fun amount h => ?_, trivial⟩
    · cases h.2.2
    · cases h.2.2
  exact ⟨happroves, by decide +kernel,
    (spending_authorised devEnv ⟨devAddress 1, Amount.zero⟩ "Token" "TKN" 6 devBalances
      (some (devAddress 1)) (.new 100000) []).2.2 approval _ _ _ draws happroves halong⟩

end Sprax.Wasm.TokenContract
