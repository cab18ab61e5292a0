import Sprax.Store
import Sprax.Effects

/-!
# Contract storage and gas

The native contracts of `sprax-wasm` run as methods on a storage and a gas meter.
Every read and write is charged first and can run out of gas; what a call has
written by then stays written. A panic is an outcome of its own, which is not an
`Err`. Charges are 64-bit and saturate, so a meter with the largest limit never
runs out.
-/
namespace Sprax.Wasm
open Std FiniteMap Effects

/-- Errors that the contracts return. -/
inductive ContractError
  | unauthorized (reason : String)
  | contractNotFound (reason : String)
  | codeNotFound (codeId : UInt64)
  | insufficientFunds (balance required : String)
  | outOfGas (limit consumed : ℕ)
  | reentrancyDetected (contract : String)
  | arithmeticError (reason : String)
  | invalidInput (reason : String)
  | executionFailed (reason : String)
  deriving DecidableEq

/-- How a call ends that does not return `Ok`. -/
inductive Abort
  | error (e : ContractError)
  | panicked
  deriving DecidableEq

/-- The end of a call that its gas limit cut. -/
def Abort.isOutOfGas : Abort → Bool
  | .error (.outOfGas _ _) => true
  | _ => false

structure GasMeter where
  limit : ℕ
  consumed : ℕ
  deriving DecidableEq

namespace GasMeter

def storageReadBaseGas : ℕ := 100
def storageReadByteGas : ℕ := 1
def storageWriteBaseGas : ℕ := 500
def storageWriteByteGas : ℕ := 2

def new (limit : ℕ) : GasMeter := ⟨limit, 0⟩

def consume (g : GasMeter) (amount : ℕ) : Except ContractError GasMeter :=
  let newConsumed := min (g.consumed + amount) u64Max
  if g.limit < newConsumed then .error (.outOfGas g.limit newConsumed)
  else .ok { g with consumed := newConsumed }

def readCost (bytesLen : ℕ) : ℕ :=
  (storageReadBaseGas + bytesLen * storageReadByteGas % 2 ^ 64) % 2 ^ 64

def writeCost (bytesLen : ℕ) : ℕ :=
  (storageWriteBaseGas + bytesLen * storageWriteByteGas % 2 ^ 64) % 2 ^ 64

def consumeRead (g : GasMeter) (bytesLen : ℕ) : Except ContractError GasMeter :=
  g.consume (readCost bytesLen)

def consumeWrite (g : GasMeter) (bytesLen : ℕ) : Except ContractError GasMeter :=
  g.consume (writeCost bytesLen)

/-- The meter accepts charges of `n` in all. -/
def Affords (g : GasMeter) (n : ℕ) : Prop := min (g.consumed + n) u64Max ≤ g.limit

instance decidableAffords (g : GasMeter) (n : ℕ) : Decidable (g.Affords n) :=
  inferInstanceAs (Decidable (_ ≤ _))

/-- The meter after accepted charges of `n` in all. -/
def after (g : GasMeter) (n : ℕ) : GasMeter := { g with consumed := min (g.consumed + n) u64Max }

theorem consume_eq (g : GasMeter) (n : ℕ) :
    g.consume n = if g.Affords n then .ok (g.after n)
      else .error (.outOfGas g.limit (min (g.consumed + n) u64Max)) := by
  by_cases h : g.Affords n
  · have h' : ¬ g.limit < min (g.consumed + n) u64Max := Nat.not_lt.mpr h
    simp only [consume, after, if_pos h, if_neg h']
  · have h' : g.limit < min (g.consumed + n) u64Max := Nat.not_le.mp h
    simp only [consume, if_pos h', if_neg h]

@[simp] theorem after_after (g : GasMeter) (n m : ℕ) : (g.after n).after m = g.after (n + m) := by
  simp only [after, mk.injEq, true_and]
  omega

/-- Charges add up, also once the counter has saturated. -/
@[simp] theorem affords_after (g : GasMeter) (n m : ℕ) : (g.after n).Affords m ↔
    g.Affords (n + m) := by
  simp only [Affords, after]
  omega

theorem Affords.mono {g : GasMeter} {n m : ℕ} (hm : g.Affords m) (h : n ≤ m) : g.Affords n := by
  unfold Affords at *
  omega

end GasMeter

/-- Tables of the contracts, by contract address. -/
structure ContractStorage where
  state : ExtTreeMap Address ByteMap compare

namespace ContractStorage

def new : ContractStorage := ⟨∅⟩

def getRaw (s : ContractStorage) (contract : Address) (key : Bytes) : Option Bytes :=
  (s.state[contract]?).bind (fun map => map[key]?)

def setRaw (s : ContractStorage) (contract : Address) (key value : Bytes) : ContractStorage :=
  ⟨s.state.insert contract (((s.state[contract]?).getD ∅).insert key value)⟩

theorem getRaw_setRaw_self (s : ContractStorage) (contract : Address) (key value : Bytes) :
    (s.setRaw contract key value).getRaw contract key = some value := by
  simp [getRaw, setRaw]

theorem getRaw_setRaw_ne (s : ContractStorage) {contract c : Address} {key k : Bytes}
    (value : Bytes) (h : ¬ (contract = c ∧ key = k)) :
    (s.setRaw contract key value).getRaw c k = s.getRaw c k := by
  unfold getRaw setRaw
  by_cases hc : contract = c
  · subst hc
    have hk : key ≠ k := fun hk => h ⟨rfl, hk⟩
    rw [ExtTreeMap.getElem?_insert_self, Option.bind_some, getElem?_insert_ne _ _ hk]
    cases s.state[contract]? <;> simp
  · rw [getElem?_insert_ne _ _ hc]

/-- The table of one contract. -/
def table (s : ContractStorage) (contract : Address) : ByteMap := (s.state[contract]?).getD ∅

theorem getRaw_eq (s : ContractStorage) (contract : Address) (key : Bytes) :
    s.getRaw contract key = (s.table contract)[key]? := by
  unfold getRaw table
  cases s.state[contract]? <;> simp

@[simp] theorem table_setRaw (s : ContractStorage) (contract : Address) (key value : Bytes) :
    (s.setRaw contract key value).table contract = (s.table contract).insert key value := by
  simp [table, setRaw]

/-- What a metered read of the key costs. -/
def readGas (s : ContractStorage) (contract : Address) (key : Bytes) : ℕ :=
  GasMeter.readCost (key.length + (s.getRaw contract key).elim 0 List.length)

/-- What a metered write costs. -/
def writeGas (key value : Bytes) : ℕ := GasMeter.writeCost (key.length + value.length)

end ContractStorage

/-- What a running call can change. -/
structure World where
  storage : ContractStorage
  gas : GasMeter

/-- A contract method. -/
abbrev Exec := EStateM Abort World

namespace ContractStorage

/-- Metered read: the value is looked up, then charged by the length of both. -/
def get (contract : Address) (key : Bytes) : Exec (Option Bytes) := fun w =>
  let val := w.storage.getRaw contract key
  match w.gas.consumeRead (key.length + val.elim 0 List.length) with
  | .ok gas => .ok val { w with gas := gas }
  | .error e => .error (.error e) w

/-- Metered write: charged first. -/
def set (contract : Address) (key value : Bytes) : Exec Unit := fun w =>
  match w.gas.consumeWrite (key.length + value.length) with
  | .ok gas => .ok () ⟨w.storage.setRaw contract key value, gas⟩
  | .error e => .error (.error e) w

end ContractStorage

/-- Leave with an error. -/
def fail {α : Type} (e : ContractError) : Exec α := throw (.error e)

/-- `unwrap` of something that is missing or does not decode. -/
def unwrap {α : Type} : Option α → Exec α
  | some a => pure a
  | none => throw .panicked

/-- `ok_or_else`. -/
def okOr {α : Type} (e : ContractError) : Option α → Exec α
  | some a => pure a
  | none => fail e

/-- `map_err` of an arithmetic check, with the text of its error. -/
def arithmetic {α : Type} : Except TypeError α → Exec α
  | .ok a => pure a
  | .error e => fail (.arithmeticError e.display)

section Accesses

/-- A read that the meter affords. -/
theorem get_of_affords {s : ContractStorage} {g : GasMeter} {contract : Address} {key : Bytes}
    (h : g.Affords (s.readGas contract key)) :
    ContractStorage.get contract key ⟨s, g⟩ =
      .ok (s.getRaw contract key) ⟨s, g.after (s.readGas contract key)⟩ := by
  have hc : g.consumeRead (key.length + (s.getRaw contract key).elim 0 List.length) =
      .ok (g.after (s.readGas contract key)) := (g.consume_eq _).trans (if_pos h)
  simp only [ContractStorage.get, hc]

/-- A read that it does not afford leaves everything as it was. -/
theorem get_of_not_affords {s : ContractStorage} {g : GasMeter} {contract : Address} {key : Bytes}
    (h : ¬ g.Affords (s.readGas contract key)) :
    ContractStorage.get contract key ⟨s, g⟩ = .error (.error (.outOfGas g.limit
      (min (g.consumed + s.readGas contract key) u64Max))) ⟨s, g⟩ := by
  have hc : g.consumeRead (key.length + (s.getRaw contract key).elim 0 List.length) =
      .error (.outOfGas g.limit (min (g.consumed + s.readGas contract key) u64Max)) :=
    (g.consume_eq _).trans (if_neg h)
  simp only [ContractStorage.get, hc]

theorem set_of_affords {s : ContractStorage} {g : GasMeter} {contract : Address} {key value : Bytes}
    (h : g.Affords (ContractStorage.writeGas key value)) :
    ContractStorage.set contract key value ⟨s, g⟩ =
      .ok () ⟨s.setRaw contract key value, g.after (ContractStorage.writeGas key value)⟩ := by
  have hc : g.consumeWrite (key.length + value.length) =
      .ok (g.after (ContractStorage.writeGas key value)) := (g.consume_eq _).trans (if_pos h)
  simp only [ContractStorage.set, hc]

theorem set_of_not_affords {s : ContractStorage} {g : GasMeter} {contract : Address}
    {key value : Bytes} (h : ¬ g.Affords (ContractStorage.writeGas key value)) :
    ContractStorage.set contract key value ⟨s, g⟩ = .error (.error (.outOfGas g.limit
      (min (g.consumed + ContractStorage.writeGas key value) u64Max))) ⟨s, g⟩ := by
  have hc : g.consumeWrite (key.length + value.length) =
      .error (.outOfGas g.limit (min (g.consumed + ContractStorage.writeGas key value) u64Max)) :=
    (g.consume_eq _).trans (if_neg h)
  simp only [ContractStorage.set, hc]

@[simp] theorem returns_get (contract : Address) (key : Bytes) (s : ContractStorage) (g : GasMeter)
    (Q : Option Bytes → World → Prop) :
    Returns (ContractStorage.get contract key) ⟨s, g⟩ Q ↔ g.Affords (s.readGas contract key) ∧
      Q (s.getRaw contract key) ⟨s, g.after (s.readGas contract key)⟩ := by
  by_cases h : g.Affords (s.readGas contract key)
  · simp only [returns_of_eq (get_of_affords h), h, true_and]
  · simp only [not_returns_of_eq (get_of_not_affords h), h, false_and]

@[simp] theorem returns_set (contract : Address) (key value : Bytes) (s : ContractStorage)
    (g : GasMeter) (Q : Unit → World → Prop) :
    Returns (ContractStorage.set contract key value) ⟨s, g⟩ Q ↔
      g.Affords (ContractStorage.writeGas key value) ∧
      Q () ⟨s.setRaw contract key value, g.after (ContractStorage.writeGas key value)⟩ := by
  by_cases h : g.Affords (ContractStorage.writeGas key value)
  · simp only [returns_of_eq (set_of_affords h), h, true_and]
  · simp only [not_returns_of_eq (set_of_not_affords h), h, false_and]

/-- A statement about the storage that a call leaves when it returns `Err`. -/
def onErr (Q : ContractStorage → Prop) : Abort → World → Prop
  | .error _, w => Q w.storage
  | .panicked, _ => False

@[simp] theorem onErr_error (Q : ContractStorage → Prop) (e : ContractError) (w : World) :
    onErr Q (.error e) w ↔ Q w.storage := Iff.rfl

@[simp] theorem onErr_panicked (Q : ContractStorage → Prop) (w : World) :
    ¬ onErr Q .panicked w := id

@[simp] theorem raises_get (contract : Address) (key : Bytes) (s : ContractStorage) (g : GasMeter)
    (Q : Abort → World → Prop) :
    Raises (ContractStorage.get contract key) ⟨s, g⟩ Q ↔ ¬ g.Affords (s.readGas contract key) ∧
      Q (.error (.outOfGas g.limit (min (g.consumed + s.readGas contract key) u64Max))) ⟨s, g⟩ := by
  by_cases h : g.Affords (s.readGas contract key)
  · simp only [not_raises_of_eq (get_of_affords h), h, not_true, false_and]
  · simp only [raises_of_eq (get_of_not_affords h), h, not_false_eq_true, true_and]

@[simp] theorem raises_set (contract : Address) (key value : Bytes) (s : ContractStorage)
    (g : GasMeter) (Q : Abort → World → Prop) :
    Raises (ContractStorage.set contract key value) ⟨s, g⟩ Q ↔
      ¬ g.Affords (ContractStorage.writeGas key value) ∧
      Q (.error (.outOfGas g.limit (min (g.consumed + ContractStorage.writeGas key value) u64Max)))
        ⟨s, g⟩ := by
  by_cases h : g.Affords (ContractStorage.writeGas key value)
  · simp only [not_raises_of_eq (set_of_affords h), h, not_true, false_and]
  · simp only [raises_of_eq (set_of_not_affords h), h, not_false_eq_true, true_and]

variable {α : Type}

@[simp] theorem returns_fail (e : ContractError) (w : World) (Q : α → World → Prop) :
    ¬ Returns (fail e) w Q := returns_throw _ w Q

@[simp] theorem raises_fail (e : ContractError) (w : World) (Q : Abort → World → Prop) :
    Raises (fail e : Exec α) w Q ↔ Q (.error e) w := raises_throw _ w Q

@[simp] theorem returns_unwrap (o : Option α) (w : World) (Q : α → World → Prop) :
    Returns (unwrap o) w Q ↔ ∃ a, o = some a ∧ Q a w := by
  cases o <;> simp [unwrap]

@[simp] theorem raises_unwrap (o : Option α) (w : World) (Q : Abort → World → Prop) :
    Raises (unwrap o) w Q ↔ o = none ∧ Q .panicked w := by
  cases o <;> simp [unwrap]

@[simp] theorem returns_okOr (e : ContractError) (o : Option α) (w : World) (Q : α → World → Prop) :
    Returns (okOr e o) w Q ↔ ∃ a, o = some a ∧ Q a w := by
  cases o <;> simp [okOr]

@[simp] theorem raises_okOr (e : ContractError) (o : Option α) (w : World)
    (Q : Abort → World → Prop) :
    Raises (okOr e o) w Q ↔ o = none ∧ Q (.error e) w := by
  cases o <;> simp [okOr]

@[simp] theorem returns_arithmetic (x : Except TypeError α) (w : World) (Q : α → World → Prop) :
    Returns (arithmetic x) w Q ↔ ∃ a, x = .ok a ∧ Q a w := by
  cases x <;> simp [arithmetic]

@[simp] theorem raises_arithmetic (x : Except TypeError α) (w : World) (Q : Abort → World → Prop) :
    Raises (arithmetic x) w Q ↔ ∃ e, x = .error e ∧ Q (.error (.arithmeticError e.display)) w := by
  cases x <;> simp [arithmetic]

@[simp] theorem ends_fail (e : ContractError) (w : World) (Q : World → Prop) :
    Ends (fail e : Exec α) w Q ↔ Q w := ends_throw _ w Q

@[simp] theorem ends_set (contract : Address) (key value : Bytes) (s : ContractStorage)
    (g : GasMeter) (Q : World → Prop) :
    Ends (ContractStorage.set contract key value) ⟨s, g⟩ Q ↔
      g.Affords (ContractStorage.writeGas key value) ∧
        Q ⟨s.setRaw contract key value, g.after (ContractStorage.writeGas key value)⟩ ∨
      ¬ g.Affords (ContractStorage.writeGas key value) ∧ Q ⟨s, g⟩ := by
  simp [Ends]

end Accesses

/-- The part of the environment that contracts read. -/
structure Env where
  blockHeight : UInt64
  contractAddress : Address
  deriving DecidableEq

structure MessageInfo where
  sender : Address
  funds : Amount
  deriving DecidableEq

structure ContractEvent where
  eventType : String
  attributes : List (String × String)
  deriving DecidableEq

/-- Native fund transfer out of a contract. -/
structure BankSend where
  recipient : Address
  amount : Amount
  deriving DecidableEq

structure ContractResponse where
  events : List ContractEvent
  messages : List BankSend
  deriving DecidableEq

/-- One call of a contract: environment, caller, gas meter and message. -/
structure Invocation (μ : Type) where
  env : Env
  info : MessageInfo
  gas : GasMeter
  msg : μ
  deriving DecidableEq

/-- The storage a method leaves behind, and what it returns. -/
def finish {α : Type} : EStateM.Result Abort World α → ContractStorage × Except Abort α
  | .ok r w => (w.storage, .ok r)
  | .error e w => (w.storage, .error e)

theorem raises_iff_finish {α : Type} {p : Exec α} {w : World} {Q : ContractStorage → Prop} :
    Raises p w (onErr Q) ↔ ∃ e, (finish (p w)).2 = .error (.error e) ∧ Q (finish (p w)).1 := by
  cases h : p w with
  | ok a t => simp [not_raises_of_eq h, finish]
  | error e t => cases e <;> simp [raises_of_eq h, finish]

/-- A method returns or raises, and leaves its storage either way. -/
theorem finish_cases {α : Type} {p : Exec α} {w : World} {s : ContractStorage}
    {res : Except Abort α} (h : finish (p w) = (s, res)) :
    (∃ r, res = .ok r ∧ Returns p w (fun a t => a = r ∧ t.storage = s)) ∨
      ∃ e, res = .error e ∧ Raises p w (fun e' t => e' = e ∧ t.storage = s) := by
  cases hrun : p w with
  | ok r t =>
    rw [hrun] at h
    cases h
    exact .inl ⟨r, rfl, (returns_of_eq hrun _).mpr ⟨rfl, rfl⟩⟩
  | error e t =>
    rw [hrun] at h
    cases h
    exact .inr ⟨e, rfl, (raises_of_eq hrun _).mpr ⟨rfl, rfl⟩⟩

/-- One call: the storage it leaves behind, and what it returns. -/
def invoke {μ : Type} (execute : Env → MessageInfo → μ → Exec ContractResponse)
    (s : ContractStorage) (c : Invocation μ) : ContractStorage × Except Abort ContractResponse :=
  finish (execute c.env c.info c.msg ⟨s, c.gas⟩)

/-- A call returns `Ok` or it does not, and leaves its storage either way. -/
theorem invoke_cases {μ : Type} (execute : Env → MessageInfo → μ → Exec ContractResponse)
    (s : ContractStorage) (c : Invocation μ) :
    (∃ r, (invoke execute s c).2 = .ok r ∧ Returns (execute c.env c.info c.msg) ⟨s, c.gas⟩
      (fun a w => a = r ∧ w.storage = (invoke execute s c).1)) ∨
    ∃ e, (invoke execute s c).2 = .error e ∧ Raises (execute c.env c.info c.msg) ⟨s, c.gas⟩
      (fun e' w => e' = e ∧ w.storage = (invoke execute s c).1) :=
  finish_cases rfl

theorem ends_finish {α : Type} (p : Exec α) (w : World) :
    Ends p w (fun t => t.storage = (finish (p w)).1) := by
  cases h : p w with
  | ok a t => exact .inl ((returns_of_eq h _).mpr rfl)
  | error e t => exact .inr ((raises_of_eq h _).mpr rfl)

/-- Two storages hold the same value under every key of every contract. -/
def ContractStorage.Same (s t : ContractStorage) : Prop := ∀ c k, s.getRaw c k = t.getRaw c k

end Sprax.Wasm
