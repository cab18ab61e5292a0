import Sprax.Wallet

/-!
# What a transaction keeps of its payload

`parse_transaction` reads a payload in the node's own encoding, or field by field. On
the first way nothing is left out, but the checks of `Transaction::new` are not made.
On the second they are, but a field that is present under the wrong type gives way to a
default, and messages of a type the loop does not know are dropped. A transaction is
faithful to its payload exactly if none of this applies to the payload.
-/
namespace Sprax.Rpc

/-- The field, if it is there, reads as `a`. -/
def Reads {α : Type} (read : Value → Option α) (field : Option Value) (a : α) : Prop :=
  ∀ x, field = some x → read x = some a

/-- The field, if it is there, has the type that is looked for. -/
def HasType {α : Type} (read : Value → Option α) (field : Option Value) : Prop :=
  ∀ x, field = some x → (read x).isSome = true

theorem Reads.hasType {α : Type} {read : Value → Option α} {field : Option Value} {a : α}
    (h : Reads read field a) : HasType read field := by
  intro x hx
  rw [h x hx]
  rfl

/-- What the parser makes of a field with a default. -/
theorem reads_getD {α : Type} {read : Value → Option α} {field : Option Value}
    (h : HasType read field) (default : α) : Reads read field ((field.bind read).getD default) := by
  rintro x rfl
  obtain ⟨a, ha⟩ := Option.isSome_iff_exists.mp (h x rfl)
  rw [Option.bind_some, ha, Option.getD_some]

/-- The first of two spellings that is there. -/
def spelled (v : Value) (first second : String) : Option Value := (v.get first).or (v.get second)

/-- An amount in atomic units, as a text. -/
def readAmount (x : Value) : Option Amount :=
  x.asStr.bind (fun s => (Amount.fromAttoStr s).toOption)

def IsObject : Value → Prop
  | .object _ => True
  | _ => False

/-- The type of the message is not given, or is that of a transfer. -/
def IsTransfer (msg : Value) : Prop :=
  ∀ x, msg.get "type" = some x → x.asStr = some "Transfer" ∨ x.asStr = some "transfer"

section Payloads
variable {P : Primitives} (B : Bech32 P)

/-- The message an element of the payload stands for, in the node's own encoding or as a transfer of
the wallets. -/
inductive Denotes (msg : Value) : TxMessage → Prop
  | own (m : TxMessage) (hown : TxMessage.fromValue B msg = some m) : Denotes msg m
  | transfer (recipientText amountText : String) (recipient : Address) (amount : Amount)
      (hforeign : TxMessage.fromValue B msg = none) (htype : IsTransfer msg)
      (hto : (msg.get "to").bind Value.asStr = some recipientText)
      (hrecipient : parseAddress B recipientText = some recipient)
      (hamount : (msg.get "amount").bind Value.asStr = some amountText)
      (hread : Amount.fromAttoStr amountText = .ok amount) : Denotes msg
      (.transfer recipient amount)

/-- The invariants of `Transaction::new`. -/
structure Sound (tx : Transaction) : Prop where
  messages_ne : tx.body.messages ≠ []
  publicKey_ne : tx.publicKey ≠ []
  signature_ne : tx.signature ≠ []

/-- The values of a payload in the node's own encoding. -/
structure OwnFields where
  chainId : Value
  sender : Value
  nonce : Value
  messages : Value
  fee : Value
  memo : Value
  timeoutHeight : Value
  keyType : Value
  publicKey : Value
  signature : Value

def ownFields (v : Value) : Option OwnFields := do
  let [body, keyType, publicKey, signature] ←
    v.structFields ["body", "key_type", "public_key", "signature"] | none
  let [chainId, sender, nonce, messages, fee, memo, timeoutHeight] ← body.structFields
    ["chain_id", "sender", "nonce", "messages", "fee", "memo", "timeout_height"] | none
  return ⟨chainId, sender, nonce, messages, fee, memo, timeoutHeight, keyType, publicKey, signature⟩

/-- The transaction has the messages, nonce, fee amount, chain identifier and timeout height of the
values. -/
structure KeepsOwn (o : OwnFields) (tx : Transaction) : Prop where
  messages : ∃ items, o.messages = .array items ∧
    List.Forall₂ (fun msg m => TxMessage.fromValue B msg = some m) items tx.body.messages
  nonce : o.nonce.asU64 = some tx.body.nonce
  feeAmount : ∃ amount gasLimit priorityFee,
    o.fee.structFields ["amount", "gas_limit", "priority_fee"] =
    some [amount, gasLimit, priorityFee] ∧
      Amount.fromValue amount = some tx.body.fee.amount
  chainId : o.chainId.asStr = some tx.body.chainId.id
  timeoutHeight : o.timeoutHeight.asU64 = some tx.body.timeoutHeight

/-- The same of a payload in the spellings of the wallets, as far as the fields are there. -/
structure KeepsNamed (body : Value) (tx : Transaction) : Prop where
  messages : ∃ items, body.get "messages" = some (.array items) ∧
    List.Forall₂ (Denotes B) items tx.body.messages
  nonce : Reads Value.asU64 (body.get "nonce") tx.body.nonce
  feeAmount : ∀ fee, body.get "fee" = some fee → IsObject fee ∧
    Reads readAmount (spelled fee "amount" "amountAtto") tx.body.fee.amount
  chainId : Reads Value.asStr (spelled body "chainId" "chain_id") tx.body.chainId.id
  timeoutHeight : Reads Value.asU64 (spelled body "timeout_height" "timeoutHeight")
    tx.body.timeoutHeight

/-- The transaction is sound and keeps what the payload says. -/
def Faithful (v : Value) (tx : Transaction) : Prop :=
  Sound tx ∧ match Transaction.fromValue B v with
    | some _ => ∃ o, ownFields v = some o ∧ KeepsOwn B o tx
    | none => ∃ body, v.get "body" = some body ∧ KeepsNamed B body tx

/-- The fields that are there have the type the parser looks for, and no message is of another type
than a transfer. -/
structure Typed (body : Value) : Prop where
  messages : ∀ items, body.get "messages" = some (.array items) →
    ∀ msg ∈ items, TxMessage.fromValue B msg ≠ none ∨ IsTransfer msg
  nonce : HasType Value.asU64 (body.get "nonce")
  feeAmount : ∀ fee, body.get "fee" = some fee → IsObject fee ∧
    HasType Value.asStr (spelled fee "amount" "amountAtto")
  chainId : HasType Value.asStr (spelled body "chainId" "chain_id")
  timeoutHeight : HasType Value.asU64 (spelled body "timeout_height" "timeoutHeight")

/-- In the node's own encoding messages, key and signature are not empty; any other payload
is typed. -/
def Clean (v : Value) : Prop :=
  match Transaction.fromValue B v with
  | some _ => ∃ o, ownFields v = some o ∧ o.messages ≠ .array [] ∧ o.publicKey ≠ .array [] ∧
      o.signature ≠ .array []
  | none => ∀ body, v.get "body" = some body → Typed B body

variable {B}

theorem forall₂_of_mapM {α β : Type} {f : α → Option β} {as : List α} {bs : List β}
    (h : as.mapM f = some bs) : List.Forall₂ (fun a b => f a = some b) as bs := by
  induction as generalizing bs with
  | nil =>
    cases h
    exact .nil
  | cons a as ih =>
    rw [List.mapM_cons] at h
    obtain ⟨b, hb, h⟩ := Option.bind_eq_some_iff.mp h
    obtain ⟨rest, hrest, h⟩ := Option.bind_eq_some_iff.mp h
    cases h
    exact .cons hb (ih hrest)

theorem feeAmount_of_fromValue {v : Value} {fee : TxFee} (h : TxFee.fromValue v = some fee) :
    ∃ amount gasLimit priorityFee,
      v.structFields ["amount", "gas_limit", "priority_fee"] =
      some [amount, gasLimit, priorityFee] ∧
        Amount.fromValue amount = some fee.amount := by
  unfold TxFee.fromValue at h
  obtain ⟨fields, hfields, hread⟩ := Option.bind_eq_some_iff.mp h
  split at hread
  · rename_i amount gasLimit priorityFee
    obtain ⟨a, ha, hread⟩ := Option.bind_eq_some_iff.mp hread
    obtain ⟨g, -, hread⟩ := Option.bind_eq_some_iff.mp hread
    obtain ⟨p, -, hread⟩ := Option.bind_eq_some_iff.mp hread
    cases hread
    exact ⟨amount, gasLimit, priorityFee, hfields, ha⟩
  · cases hread

theorem body_of_fromValue {v : Value} {body : TxBody} (h : TxBody.fromValue B v = some body) :
    ∃ chainId sender nonce items fee memo timeoutHeight,
      v.structFields ["chain_id", "sender", "nonce", "messages", "fee", "memo", "timeout_height"] =
        some [chainId, sender, nonce, .array items, fee, memo, timeoutHeight] ∧
      chainId.asStr = some body.chainId.id ∧ nonce.asU64 = some body.nonce ∧
      List.Forall₂ (fun msg m => TxMessage.fromValue B msg = some m) items body.messages ∧
      TxFee.fromValue fee = some body.fee ∧ timeoutHeight.asU64 = some body.timeoutHeight := by
  unfold TxBody.fromValue at h
  obtain ⟨fields, hfields, hread⟩ := Option.bind_eq_some_iff.mp h
  split at hread
  · rename_i chainId sender nonce messages fee memo timeoutHeight
    obtain ⟨c, hc, hread⟩ := Option.bind_eq_some_iff.mp hread
    obtain ⟨a, -, hread⟩ := Option.bind_eq_some_iff.mp hread
    obtain ⟨n, hn, hread⟩ := Option.bind_eq_some_iff.mp hread
    obtain ⟨items, hitems, hread⟩ := Option.bind_eq_some_iff.mp hread
    obtain ⟨ms, hms, hread⟩ := Option.bind_eq_some_iff.mp hread
    obtain ⟨f, hf, hread⟩ := Option.bind_eq_some_iff.mp hread
    obtain ⟨m, -, hread⟩ := Option.bind_eq_some_iff.mp hread
    obtain ⟨t, ht, hread⟩ := Option.bind_eq_some_iff.mp hread
    cases hread
    cases messages with
    | array items' =>
      cases hitems
      exact ⟨chainId, sender, nonce, items, fee, memo, timeoutHeight, hfields, hc, hn,
        forall₂_of_mapM hms, hf, ht⟩
    | _ => cases hitems
  · cases hread

/-- What is read in the node's own encoding. -/
theorem keepsOwn_of_fromValue {v : Value} {tx : Transaction}
    (h : Transaction.fromValue B v = some tx) :
    ∃ o, ownFields v = some o ∧ KeepsOwn B o tx ∧ o.publicKey.readBytes = some tx.publicKey ∧
      o.signature.readBytes = some tx.signature := by
  unfold Transaction.fromValue at h
  obtain ⟨fields, hfields, hread⟩ := Option.bind_eq_some_iff.mp h
  split at hread
  · rename_i bodyValue keyType publicKey signature
    obtain ⟨body, hbody, hread⟩ := Option.bind_eq_some_iff.mp hread
    obtain ⟨key, -, hread⟩ := Option.bind_eq_some_iff.mp hread
    obtain ⟨pk, hpk, hread⟩ := Option.bind_eq_some_iff.mp hread
    obtain ⟨sig, hsig, hread⟩ := Option.bind_eq_some_iff.mp hread
    cases hread
    obtain ⟨chainId, sender, nonce, items, fee, memo, timeoutHeight, hbodyFields, hchain, hnonce,
      hmessages, hfee, htimeout⟩ := body_of_fromValue hbody
    have hown : ownFields v =
        some ⟨chainId, sender, nonce, .array items, fee, memo, timeoutHeight, keyType, publicKey,
          signature⟩ := by
      unfold ownFields
      rw [hfields]
      simp only [Option.bind_eq_bind, Option.bind_some, hbodyFields]
      rfl
    exact ⟨_, hown, ⟨⟨items, rfl, hmessages⟩, hnonce, feeAmount_of_fromValue hfee, hchain,
      htimeout⟩, hpk, hsig⟩
  · cases hread

theorem readBytes_ne_nil_iff {v : Value} {bs : Bytes} (h : v.readBytes = some bs) :
    bs ≠ [] ↔ v ≠ .array [] := by
  unfold Value.readBytes at h
  cases v with
  | array items =>
    have hlength := (forall₂_of_mapM (f := Value.asU8) h).length_eq
    rw [not_iff_not, ← List.length_eq_zero_iff, ← hlength, List.length_eq_zero_iff]
    simp
  | _ => cases h

theorem sound_iff_of_own {o : OwnFields} {tx : Transaction} (h : KeepsOwn B o tx)
    (hkey : o.publicKey.readBytes = some tx.publicKey) (hsignature : o.signature.readBytes =
      some tx.signature) :
    Sound tx ↔ o.messages ≠ .array [] ∧ o.publicKey ≠ .array [] ∧ o.signature ≠ .array [] := by
  obtain ⟨items, hitems, hmessages⟩ := h.messages
  have hempty : tx.body.messages ≠ [] ↔ o.messages ≠ .array [] := by
    rw [hitems, not_iff_not, ← List.length_eq_zero_iff, ← hmessages.length_eq,
      List.length_eq_zero_iff]
    simp
  rw [← hempty, ← readBytes_ne_nil_iff hkey, ← readBytes_ne_nil_iff hsignature]
  exact ⟨fun hs => ⟨hs.1, hs.2, hs.3⟩, fun hs => ⟨hs.1, hs.2.1, hs.2.2⟩⟩

theorem orError_eq_ok_iff {α : Type} {o : Option α} {message : String} {a : α} :
    orError o message = .ok a ↔ o = some a := by
  cases o with
  | none => simp [orError]
  | some b => simp [orError]

theorem id_of_chainId_new {s : String} {c : ChainId} (h : ChainId.new s = .ok c) : c.id = s := by
  unfold ChainId.new at h
  dsimp only at h
  split at h
  · cases h
  · split at h
    · cases h
      rfl
    · cases h

/-- A message of a known type is kept. -/
theorem denotes_of_parseMessage {msg : Value} {r : Option TxMessage}
    (h : parseMessage B msg = .ok r) (hknown : TxMessage.fromValue B msg ≠ none ∨ IsTransfer msg) :
      ∃ m, r = some m ∧ Denotes B msg m := by
  unfold parseMessage at h
  split at h
  · rename_i m hown
    cases h
    exact ⟨m, rfl, .own m hown⟩
  · rename_i hforeign
    have htype := hknown.resolve_left (fun hsome => hsome hforeign)
    have htransfer : ((msg.get "type").bind Value.asStr).getD "Transfer" = "Transfer" ∨
        ((msg.get "type").bind Value.asStr).getD "Transfer" = "transfer" := by
      cases hget : msg.get "type" with
      | none => exact Or.inl rfl
      | some x =>
        rcases htype x hget with hx | hx
        · exact Or.inl (by rw [Option.bind_some, hx]; rfl)
        · exact Or.inr (by rw [Option.bind_some, hx]; rfl)
    dsimp only at h
    rw [if_pos htransfer] at h
    simp only [bind_eq_ok_iff, orError_eq_ok_iff] at h
    obtain ⟨recipientText, hto, recipient, hrecipient, amountText, hamount, amount, hread, h⟩ := h
    cases h
    exact ⟨_, rfl, .transfer recipientText amountText recipient amount hforeign htype hto hrecipient
      hamount hread⟩

theorem forall₂_of_parseMessages {items : List Value} {rs : List (Option TxMessage)}
    (h : items.mapM (parseMessage B) = .ok rs)
    (hknown : ∀ msg ∈ items, TxMessage.fromValue B msg ≠ none ∨ IsTransfer msg) :
    List.Forall₂ (Denotes B) items (rs.filterMap id) := by
  induction items generalizing rs with
  | nil =>
    cases h
    exact .nil
  | cons msg items ih =>
    rw [List.mapM_cons] at h
    simp only [bind_eq_ok_iff] at h
    obtain ⟨r, hr, rest, hrest, h⟩ := h
    cases h
    obtain ⟨m, rfl, hm⟩ := denotes_of_parseMessage hr (hknown msg List.mem_cons_self)
    exact .cons hm (ih hrest (fun msg' hmsg' => hknown msg' (List.mem_cons_of_mem _ hmsg')))

theorem known_of_denotes {msg : Value} {m : TxMessage} (h : Denotes B msg m) :
    TxMessage.fromValue B msg ≠ none ∨ IsTransfer msg := by
  cases h with
  | own _ hown => exact Or.inl (by simp [hown])
  | transfer _ _ _ _ _ htype => exact Or.inr htype

theorem known_of_forall₂ {items : List Value} {ms : List TxMessage}
    (h : List.Forall₂ (Denotes B) items ms) :
    ∀ msg ∈ items, TxMessage.fromValue B msg ≠ none ∨ IsTransfer msg := by
  induction h with
  | nil => exact fun msg hmsg => absurd hmsg List.not_mem_nil
  | cons hm _ ih =>
    intro msg hmsg
    rcases List.mem_cons.mp hmsg with rfl | hmsg
    · exact known_of_denotes hm
    · exact ih msg hmsg

/-- What is read field by field. -/
structure Parsed (B : Bech32 P) (v body : Value) (tx : Transaction) : Prop where
  body_eq : v.get "body" = some body
  chainId : ChainId.new (((spelled body "chainId" "chain_id").bind Value.asStr).getD
    "sprax-devnet-1") = .ok tx.body.chainId
  fee : parseFee (body.get "fee") = .ok tx.body.fee
  messages : ∃ rs, (((body.get "messages").bind Value.asArray).getD []).mapM
    (parseMessage B) = .ok rs ∧
    tx.body.messages = rs.filterMap id
  nonce : tx.body.nonce = ((body.get "nonce").bind Value.asU64).getD 0
  timeoutHeight : tx.body.timeoutHeight =
    ((spelled body "timeout_height" "timeoutHeight").bind Value.asU64).getD 0
  sound : Sound tx

theorem sound_of_new {body : TxBody} {keyType : KeyType} {publicKey signature : Bytes}
    {tx : Transaction} (h : Transaction.new body keyType publicKey signature = .ok tx) :
      Sound tx := by
  unfold Transaction.new at h
  split at h
  · cases h
  · rename_i hmessages
    split at h
    · cases h
    · rename_i hkey
      split at h
      · cases h
      · rename_i hsignature
        cases h
        exact ⟨fun hnil => hmessages (List.isEmpty_iff.mpr hnil), fun hnil =>
          hkey (List.isEmpty_iff.mpr hnil), fun hnil => hsignature (List.isEmpty_iff.mpr hnil)⟩

theorem parsed_of_parseWalletFormat {v : Value} {tx : Transaction}
    (h : parseWalletFormat B v = .ok tx) :
    ∃ body, Parsed B v body tx := by
  unfold parseWalletFormat at h
  simp only [bind_eq_ok_iff, orError_eq_ok_iff] at h
  obtain ⟨body, hbody, chainId, hchain, senderText, -, sender, -, fee, hfee, rs, hrs, h⟩ := h
  split at h
  · cases h
  · simp only [bind_eq_ok_iff] at h
    obtain ⟨publicKey, -, signature, -, hnew⟩ := h
    have hsound := sound_of_new hnew
    have htx := Transaction.new_ok hnew
    subst htx
    exact ⟨body, hbody, hchain, hfee, ⟨rs, hrs, rfl⟩, rfl, rfl, hsound⟩

theorem reads_feeAmount {f : Value} {fee : TxFee} (h : parseFee (some f) = .ok fee)
    (htype : HasType Value.asStr (spelled f "amount" "amountAtto")) :
    Reads readAmount (spelled f "amount" "amountAtto") fee.amount := by
  unfold parseFee at h
  simp only [bind_eq_ok_iff] at h
  obtain ⟨amount, hamount, h⟩ := h
  cases h
  intro x hx
  have htext := reads_getD htype "500000000000000" x hx
  rw [readAmount, htext, Option.bind_some, spelled, hamount]
  rfl

theorem hasType_of_readAmount {field : Option Value} {a : Amount} (h : Reads readAmount field a) :
    HasType Value.asStr field := by
  intro x hx
  obtain ⟨s, hs, -⟩ := Option.bind_eq_some_iff.mp (h x hx)
  rw [hs]
  rfl

/-- The elements of the payload, if any message was kept. -/
theorem Parsed.exists_items {v body : Value} {tx : Transaction} (h : Parsed B v body tx) :
    ∃ items rs, body.get "messages" = some (.array items) ∧ items.mapM (parseMessage B) = .ok rs ∧
      tx.body.messages = rs.filterMap id := by
  obtain ⟨rs, hrs, hmessages⟩ := h.messages
  cases hitems : (body.get "messages").bind Value.asArray with
  | none =>
    rw [hitems] at hrs
    cases hrs
    exact absurd hmessages h.sound.messages_ne
  | some items =>
    rw [hitems] at hrs
    obtain ⟨x, hx, harray⟩ := Option.bind_eq_some_iff.mp hitems
    cases x with
    | array items' =>
      cases harray
      exact ⟨items, rs, hx, hrs, hmessages⟩
    | _ => cases harray

theorem Parsed.keepsNamed_iff {v body : Value} {tx : Transaction} (h : Parsed B v body tx) :
    KeepsNamed B body tx ↔ Typed B body := by
  obtain ⟨items, rs, hitems, hrs, hmessages⟩ := h.exists_items
  constructor
  · intro hkeeps
    refine ⟨?_, hkeeps.nonce.hasType, ?_, hkeeps.chainId.hasType, hkeeps.timeoutHeight.hasType⟩
    · intro items' hitems' msg hmsg
      obtain ⟨kept, hkept, hdenotes⟩ := hkeeps.messages
      cases hitems'.symm.trans hkept
      exact known_of_forall₂ hdenotes msg hmsg
    · intro fee hfee
      obtain ⟨hobject, hreads⟩ := hkeeps.feeAmount fee hfee
      exact ⟨hobject, hasType_of_readAmount hreads⟩
  · intro htyped
    refine ⟨⟨items, hitems, ?_⟩, ?_, ?_, ?_, ?_⟩
    · rw [hmessages]
      exact forall₂_of_parseMessages hrs (htyped.messages items hitems)
    · rw [h.nonce]
      exact reads_getD htyped.nonce 0
    · intro fee hfee
      obtain ⟨hobject, htype⟩ := htyped.feeAmount fee hfee
      have hparse := h.fee
      rw [hfee] at hparse
      exact ⟨hobject, reads_feeAmount hparse htype⟩
    · rw [id_of_chainId_new h.chainId]
      exact reads_getD htyped.chainId _
    · rw [h.timeoutHeight]
      exact reads_getD htyped.timeoutHeight 0

/-- A transaction that is accepted is faithful to its payload exactly if the payload is clean. -/
theorem parseTransaction_faithful_iff (B : Bech32 P) (v : Value) (tx : Transaction)
    (h : parseTransaction B v = .ok tx) : Faithful B v tx ↔ Clean B v := by
  unfold parseTransaction at h
  unfold Faithful Clean
  cases hown : Transaction.fromValue B v with
  | some t =>
    rw [hown] at h
    cases h
    obtain ⟨o, ho, hkeeps, hkey, hsignature⟩ := keepsOwn_of_fromValue hown
    have hsound := sound_iff_of_own hkeeps hkey hsignature
    constructor
    · rintro ⟨hs, -⟩
      exact ⟨o, ho, hsound.mp hs⟩
    · rintro ⟨o', ho', hclean⟩
      cases ho.symm.trans ho'
      exact ⟨hsound.mpr hclean, o, ho, hkeeps⟩
  | none =>
    rw [hown] at h
    obtain ⟨body, hparsed⟩ := parsed_of_parseWalletFormat h
    constructor
    · rintro ⟨-, body', hbody', hkeeps⟩ body'' hbody''
      cases hparsed.body_eq.symm.trans hbody'
      cases hparsed.body_eq.symm.trans hbody''
      exact hparsed.keepsNamed_iff.mp hkeeps
    · intro hclean
      exact ⟨hparsed.sound, body, hparsed.body_eq,
        hparsed.keepsNamed_iff.mpr (hclean body hparsed.body_eq)⟩

end Payloads

section Development
open Devnet

/-- A payload in the spellings of the wallets. -/
def namedPayload (nonce : Value) (messages : List Value) : Value :=
  .object [
    ("body", .object [("chainId", .string "sprax-devnet-1"),
      ("sender", .string (addressOf 3).toHex), ("nonce", nonce), ("messages", .array messages)]),
    ("publicKey", .string "0x01"), ("signature", .string "0x02")]

def namedTransfer : Value :=
  .object [("type", .string "Transfer"), ("to", .string (addressOf 4).toHex),
    ("amount", .string "5")]

def namedUnbond : Value :=
  .object [("type", .string "Unbond"), ("validator", .string (addressOf 4).toHex),
    ("amount", .string "5")]

/-- A payload in the node's own encoding with nothing in it. -/
def hollowPayload : Value :=
  (⟨⟨⟨"sprax-devnet-1"⟩, addressOf 3, 0, [], TxFee.default, "", 0⟩, .ed25519, [], []⟩ :
    Transaction).toValue walletPrimitives

theorem fromValue_namedPayload (nonce : Value) (messages : List Value) :
    Transaction.fromValue walletBech32 (namedPayload nonce messages) = none := rfl

theorem clean_namedPayload : Clean walletBech32 (namedPayload (.number 7) [namedTransfer]) := by
  unfold Clean
  rw [fromValue_namedPayload]
  rintro body hbody
  cases hbody
  refine ⟨?_, ?_, ?_, ?_, ?_⟩
  · rintro items hitems msg hmsg
    cases hitems
    rw [List.mem_singleton] at hmsg
    subst hmsg
    refine Or.inr (fun x hx => ?_)
    cases hx
    exact Or.inl rfl
  · rintro x hx
    cases hx
    decide
  · rintro fee hfee
    cases hfee
  · rintro x hx
    cases hx
    decide
  · rintro x hx
    cases hx

theorem exists_of_toOption {α : Type} {r : Except String Transaction} {f : Transaction → α} {a : α}
    (h : r.toOption.map f = some a) : ∃ tx, r = .ok tx ∧ f tx = a := by
  cases r with
  | error e => cases h
  | ok tx =>
    cases h
    exact ⟨tx, rfl, rfl⟩

theorem parseTransaction_faithful_iff_transfer :
    ∃ tx, parseTransaction walletBech32 (namedPayload (.number 7) [namedTransfer]) = .ok tx ∧
      tx.body.nonce = 7 ∧ Faithful walletBech32 (namedPayload (.number 7) [namedTransfer]) tx := by
  have hparse : (parseTransaction walletBech32
      (namedPayload (.number 7) [namedTransfer])).toOption.map (·.body.nonce) =
        some 7 := by decide +kernel
  obtain ⟨tx, htx, hnonce⟩ := exists_of_toOption hparse
  exact ⟨tx, htx, hnonce, (parseTransaction_faithful_iff walletBech32 _ tx htx).mpr
    clean_namedPayload⟩

/-- A nonce written as a text is replaced by zero, a message of another type is dropped, and a
transaction without messages, key and signature is accepted. -/
theorem parseTransaction_unfaithful :
    (∃ tx, parseTransaction walletBech32
      (namedPayload (.string "7") [namedTransfer, namedUnbond]) = .ok tx ∧
      (tx.body.nonce, tx.body.messages.length) = (0, 1) ∧
      ¬ Faithful walletBech32 (namedPayload (.string "7") [namedTransfer, namedUnbond]) tx) ∧
    ∃ tx, parseTransaction walletBech32 hollowPayload = .ok tx ∧
      (tx.body.messages, tx.publicKey, tx.signature) = ([], [], []) ∧
      ¬ Faithful walletBech32 hollowPayload tx := by
  constructor
  · have hparse : (parseTransaction walletBech32
        (namedPayload (.string "7") [namedTransfer, namedUnbond])).toOption.map
          (fun tx => (tx.body.nonce, tx.body.messages.length)) = some (0, 1) := by decide +kernel
    obtain ⟨tx, htx, hread⟩ := exists_of_toOption hparse
    refine ⟨tx, htx, hread, ?_⟩
    rintro ⟨-, hkeeps⟩
    rw [fromValue_namedPayload] at hkeeps
    obtain ⟨body, hbody, hkeeps⟩ := hkeeps
    cases hbody
    cases hkeeps.nonce (.string "7") rfl
  · have hparse : (parseTransaction walletBech32 hollowPayload).toOption.map
        (fun tx => (tx.body.messages, tx.publicKey, tx.signature)) = some ([], [], []) := by
          decide +kernel
    obtain ⟨tx, htx, hread⟩ := exists_of_toOption hparse
    refine ⟨tx, htx, hread, ?_⟩
    rintro ⟨hsound, -⟩
    exact hsound.messages_ne (congrArg Prod.fst hread)

end Development

end Sprax.Rpc
