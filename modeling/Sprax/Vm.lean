import Mathlib.Data.Finset.Basic
import Sprax.Wasm
import Sprax.Runs
import Sprax.Devnet

/-!
# The contract engine and its call stack

A call of a contract is charged a base fee, looks the contract up, puts it on the
stack of active calls, is charged for its message and takes the contract off the
stack again. The second charge can fail between the two. A contract that is left
on the stack by then stays there: whatever the engine is asked to do afterwards,
no call of it goes through.
-/
namespace Sprax.Wasm
open Std Effects Runs

def GasMeter.baseInvocationGas : ℕ := 2000

/-- Stored bytecode metadata. -/
structure CodeInfo where
  codeId : UInt64
  creator : Address
  codeHash : Hash32
  codeSize : ℕ
  createdHeight : UInt64
  deriving DecidableEq

/-- Metadata of an instantiated contract. -/
structure ContractInfo where
  address : Address
  codeId : UInt64
  admin : Option Address
  label : String
  creator : Address
  createdHeight : UInt64
  deriving DecidableEq

structure WasmContractEngine where
  codes : ExtTreeMap UInt64 CodeInfo compare
  contracts : ExtTreeMap Address ContractInfo compare
  storage : ContractStorage
  activeCallStack : Finset Address
  nextCodeId : UInt64
  instanceNonce : UInt64

/-- What a method of the engine can change. -/
structure Frame where
  engine : WasmContractEngine
  env : Env
  gas : GasMeter

/-- A method of the engine. -/
abbrev Vm := EStateM ContractError Frame

namespace WasmContractEngine

def new : WasmContractEngine := ⟨∅, ∅, .new, ∅, 1, 0⟩

def getContractInfo (vm : WasmContractEngine) (address : Address) : Option ContractInfo :=
  vm.contracts[address]?

def getCodeInfo (vm : WasmContractEngine) (codeId : UInt64) : Option CodeInfo := vm.codes[codeId]?

/-- `gas.consume(amount)?` -/
@[irreducible] def consume (amount : ℕ) : Vm Unit := fun w =>
  match w.gas.consume amount with
  | .ok gas => .ok () { w with gas := gas }
  | .error e => .error e w

variable (P : Primitives)

def storeCode (vm : WasmContractEngine) (creator : Address) (bytecode : Bytes) (height : UInt64) :
    WasmContractEngine × Except ContractError UInt64 :=
  if bytecode.isEmpty then (vm, .error (.invalidInput "bytecode cannot be empty"))
  else
    let codeId := vm.nextCodeId
    let codeInfo := ⟨codeId, creator, P.blake3 bytecode, bytecode.length, height⟩
    ({ vm with nextCodeId := codeId + 1, codes := vm.codes.insert codeId codeInfo }, .ok codeId)

def contractAddress (creator : Address) (codeId nonce : UInt64) (label : String) : Address :=
  let preimage := creator.bytes ++ u64ToBeBytes codeId.toNat ++ u64ToBeBytes nonce.toNat ++
    label.toUTF8.data.toList
  ⟨(P.blake3 preimage).bytes.take 20, by simp [(P.blake3 preimage).length_eq]⟩

def deriveContractAddress (creator : Address) (codeId : UInt64) (label : String) :
    Vm Address := fun w =>
  let nonce := w.engine.instanceNonce
  .ok (contractAddress P creator codeId nonce label)
    { w with engine := { w.engine with instanceNonce := nonce + 1 } }

/-- The contract is registered and becomes the one of the environment. -/
def register (info : ContractInfo) : Vm Unit := modify (fun w =>
  { w with
    env := { w.env with contractAddress := info.address }
    engine := { w.engine with contracts := w.engine.contracts.insert info.address info } })

def instantiate (sender : Address) (codeId : UInt64) (label : String) (admin : Option Address)
    (_funds : Amount) : Vm Address := do
  consume GasMeter.baseInvocationGas
  let w ← get
  if (w.engine.getCodeInfo codeId).isNone then throw (.codeNotFound codeId)
  else do
    let address ← deriveContractAddress P sender codeId label
    register ⟨address, codeId, admin, label, sender, w.env.blockHeight⟩
    pure address

/-- Acquires a reentrancy execution lock on a contract address. -/
def enterCall (contract : Address) : Vm Unit := fun w =>
  if contract ∈ w.engine.activeCallStack then .error (.reentrancyDetected (contract.display P)) w
  else .ok () { w with engine :=
    { w.engine with activeCallStack := insert contract w.engine.activeCallStack } }

/-- Releases reentrancy execution lock. -/
def exitCall (contract : Address) : Vm Unit := modify (fun w =>
  { w with engine := { w.engine with activeCallStack := w.engine.activeCallStack.erase contract } })

/-- The charge for the message of a call, a 64-bit product. -/
def payloadGas (msg : Bytes) : ℕ := msg.length % 2 ^ 64 * GasMeter.storageReadByteGas % 2 ^ 64

/-- The contract of the environment is the one that is called. -/
def setContract (contract : Address) : Vm Unit := modify (fun w =>
  { w with env := { w.env with contractAddress := contract } })

def execute (contract sender : Address) (msg : Bytes) (_funds : Amount) : Vm ContractResponse := do
  consume GasMeter.baseInvocationGas
  let w ← get
  match w.engine.getContractInfo contract with
  | none => throw (.contractNotFound (contract.display P))
  | some info => do
    enterCall P contract
    setContract contract
    consume (payloadGas msg)
    exitCall contract
    pure ⟨[⟨"contract_execution",
      [("contract", contract.display P), ("code_id", toString info.codeId),
        ("caller", sender.display P)]⟩], []⟩

def query (contract : Address) (queryMsg : Bytes) : Vm Bytes := do
  consume GasMeter.baseInvocationGas
  let w ← get
  if (w.engine.getContractInfo contract).isNone then throw (.contractNotFound (contract.display P))
  else do
    consume (w.engine.storage.readGas contract queryMsg)
    pure ((w.engine.storage.getRaw contract queryMsg).getD [])

section Steps
variable {P} {w : Frame}

theorem consume_of_affords {n : ℕ} (h : w.gas.Affords n) :
    consume n w = .ok () { w with gas := w.gas.after n } := by
  simp only [consume, w.gas.consume_eq, if_pos h]

theorem consume_of_not_affords {n : ℕ} (h : ¬ w.gas.Affords n) :
    consume n w = .error (.outOfGas w.gas.limit (min (w.gas.consumed + n) u64Max)) w := by
  simp only [consume, w.gas.consume_eq, if_neg h]

@[simp] theorem returns_consume (n : ℕ) (Q : Unit → Frame → Prop) :
    Returns (consume n) w Q ↔ w.gas.Affords n ∧ Q () { w with gas := w.gas.after n } := by
  by_cases h : w.gas.Affords n
  · simp only [returns_of_eq (consume_of_affords h), h, true_and]
  · simp only [not_returns_of_eq (consume_of_not_affords h), h, false_and]

@[simp] theorem raises_consume (n : ℕ) (Q : ContractError → Frame → Prop) :
    Raises (consume n) w Q ↔ ¬ w.gas.Affords n ∧
      Q (.outOfGas w.gas.limit (min (w.gas.consumed + n) u64Max)) w := by
  by_cases h : w.gas.Affords n
  · simp only [not_raises_of_eq (consume_of_affords h), h, not_true, false_and]
  · simp only [raises_of_eq (consume_of_not_affords h), h, not_false_eq_true, true_and]

/-- The frame with the contract on the stack. -/
def Frame.entered (w : Frame) (contract : Address) : Frame :=
  { w with engine := { w.engine with activeCallStack := insert contract w.engine.activeCallStack } }

theorem enterCall_of_mem {contract : Address} (h : contract ∈ w.engine.activeCallStack) :
    enterCall P contract w = .error (.reentrancyDetected (contract.display P)) w := if_pos h

theorem enterCall_of_notMem {contract : Address} (h : contract ∉ w.engine.activeCallStack) :
    enterCall P contract w = .ok () (Frame.entered w contract) := if_neg h

@[simp] theorem returns_enterCall (contract : Address) (Q : Unit → Frame → Prop) :
    Returns (enterCall P contract) w Q ↔
      contract ∉ w.engine.activeCallStack ∧ Q () (Frame.entered w contract) := by
  by_cases h : contract ∈ w.engine.activeCallStack
  · simp only [not_returns_of_eq (enterCall_of_mem h), h, not_true, false_and]
  · simp only [returns_of_eq (enterCall_of_notMem h), h, not_false_eq_true, true_and]

@[simp] theorem raises_enterCall (contract : Address) (Q : ContractError → Frame → Prop) :
    Raises (enterCall P contract) w Q ↔
      contract ∈ w.engine.activeCallStack ∧ Q (.reentrancyDetected (contract.display P)) w := by
  by_cases h : contract ∈ w.engine.activeCallStack
  · simp only [raises_of_eq (enterCall_of_mem h), h, true_and]
  · simp only [not_raises_of_eq (enterCall_of_notMem h), h, false_and]

end Steps

/-- The contract can be called and the base charge is paid, but not the charge for
the message. -/
def Strands (w : Frame) (contract : Address) (msg : Bytes) : Prop :=
  (w.engine.getContractInfo contract).isSome ∧ contract ∉ w.engine.activeCallStack ∧
    w.gas.Affords GasMeter.baseInvocationGas ∧
    ¬ w.gas.Affords (GasMeter.baseInvocationGas + payloadGas msg)

instance decidableStrands (w : Frame) (contract : Address) (msg : Bytes) :
    Decidable (Strands w contract msg) :=
  inferInstanceAs (Decidable (_ ∧ _ ∧ _ ∧ _))

variable {P}

/-- Any other call leaves the stack as it was. -/
theorem execute_stack (contract sender : Address) (msg : Bytes) (funds : Amount) (w : Frame) :
    (leaves (execute P contract sender msg funds) w).engine.activeCallStack =
      if Strands w contract msg then insert contract w.engine.activeCallStack
      else w.engine.activeCallStack := by
  have hends := ends_iff_leaves (execute P contract sender msg funds) w
    (fun t => t.engine.activeCallStack =
    if Strands w contract msg then insert contract w.engine.activeCallStack
      else w.engine.activeCallStack)
  refine hends.mp ?_
  by_cases hbase : w.gas.Affords GasMeter.baseInvocationGas
  · cases hinfo : w.engine.getContractInfo contract with
    | none => simp [execute, Strands, hbase, hinfo]
    | some info =>
      by_cases hactive : contract ∈ w.engine.activeCallStack
      · simp [execute, Strands, hbase, hinfo, hactive]
      · by_cases hpaid : w.gas.Affords (GasMeter.baseInvocationGas + payloadGas msg)
        · simp [Ends, execute, Strands, setContract, exitCall, Frame.entered, hbase, hinfo, hactive,
            hpaid]
        · simp [execute, Strands, setContract, Frame.entered, hbase, hinfo, hactive, hpaid]
  · simp [execute, Strands, hbase]

/-- A call leaves the stack of active calls as it found it, unless it pays the base
charge of a contract that can be called and cannot pay for its message. -/
theorem execute_restores_stack_iff (contract sender : Address) (msg : Bytes) (funds : Amount)
    (w : Frame) :
    (leaves (execute P contract sender msg funds) w).engine.activeCallStack =
      w.engine.activeCallStack ↔
      ¬ Strands w contract msg := by
  rw [execute_stack]
  by_cases h : Strands w contract msg
  · rw [if_pos h]
    exact iff_of_false (fun heq => h.2.1 (Finset.insert_eq_self.mp heq)) (not_not.mpr h)
  · rw [if_neg h]
    exact iff_of_true rfl h

/-- What the engine can be asked to do, with the environment and the gas of the
request. -/
inductive Request
  | storeCode (creator : Address) (bytecode : Bytes) (height : UInt64)
  | instantiate (sender : Address) (codeId : UInt64) (label : String) (admin : Option Address)
      (funds : Amount) (env : Env) (gas : GasMeter)
  | execute (contract sender : Address) (msg : Bytes) (funds : Amount) (env : Env) (gas : GasMeter)
  | query (contract : Address) (queryMsg : Bytes) (env : Env) (gas : GasMeter)

variable (P) in
/-- The engine after a request, granted or refused. -/
def serve (vm : WasmContractEngine) : Request → WasmContractEngine
  | .storeCode creator bytecode height => (storeCode P vm creator bytecode height).1
  | .instantiate sender codeId label admin funds env gas =>
    (leaves (instantiate P sender codeId label admin funds) ⟨vm, env, gas⟩).engine
  | .execute contract sender msg funds env gas =>
    (leaves (execute P contract sender msg funds) ⟨vm, env, gas⟩).engine
  | .query contract queryMsg env gas => (leaves (query P contract queryMsg) ⟨vm, env, gas⟩).engine

theorem storeCode_stack (vm : WasmContractEngine) (creator : Address) (bytecode : Bytes)
    (height : UInt64) :
    (storeCode P vm creator bytecode height).1.activeCallStack = vm.activeCallStack := by
  unfold storeCode
  split <;> rfl

@[simp] theorem returns_deriveContractAddress (creator : Address) (codeId : UInt64) (label : String)
    (w : Frame) (Q : Address → Frame → Prop) :
    Returns (deriveContractAddress P creator codeId label) w Q ↔
      Q (contractAddress P creator codeId w.engine.instanceNonce label)
        { w with engine := { w.engine with instanceNonce := w.engine.instanceNonce + 1 } } :=
  returns_of_eq rfl Q

theorem instantiate_stack (sender : Address) (codeId : UInt64) (label : String)
    (admin : Option Address) (funds : Amount) (w : Frame) :
    (leaves (instantiate P sender codeId label admin funds) w).engine.activeCallStack =
      w.engine.activeCallStack := by
  have hends := ends_iff_leaves (instantiate P sender codeId label admin funds) w
    (fun t => t.engine.activeCallStack = w.engine.activeCallStack)
  refine hends.mp ?_
  by_cases hbase : w.gas.Affords GasMeter.baseInvocationGas
  · cases hcode : w.engine.getCodeInfo codeId with
    | none => simp [instantiate, hbase, hcode]
    | some info => simp [Ends, instantiate, register, hbase, hcode]
  · simp [instantiate, hbase]

theorem query_stack (contract : Address) (queryMsg : Bytes) (w : Frame) :
    (leaves (query P contract queryMsg) w).engine.activeCallStack = w.engine.activeCallStack := by
  have hends := ends_iff_leaves (query P contract queryMsg) w
    (fun t => t.engine.activeCallStack = w.engine.activeCallStack)
  refine hends.mp ?_
  by_cases hbase : w.gas.Affords GasMeter.baseInvocationGas
  · cases hinfo : w.engine.getContractInfo contract with
    | none => simp [query, hbase, hinfo]
    | some info =>
      by_cases hread : w.gas.Affords
        (GasMeter.baseInvocationGas + w.engine.storage.readGas contract queryMsg)
      · simp [Ends, query, hbase, hinfo, hread]
      · simp [Ends, query, hbase, hinfo, hread]
  · simp [query, hbase]

/-- No request takes a contract off the stack. -/
theorem mem_stack_serve {vm : WasmContractEngine} {contract : Address}
    (h : contract ∈ vm.activeCallStack) (r : Request) :
      contract ∈ (serve P vm r).activeCallStack := by
  cases r with
  | storeCode creator bytecode height =>
    rw [serve, storeCode_stack]
    exact h
  | instantiate sender codeId label admin funds env gas =>
    rw [serve, instantiate_stack]
    exact h
  | execute callee sender msg funds env gas =>
    rw [serve, execute_stack]
    split
    · exact Finset.mem_insert_of_mem h
    · exact h
  | query callee queryMsg env gas =>
    rw [serve, query_stack]
    exact h

/-- A contract on the stack cannot be called. -/
theorem not_returns_of_mem_stack {w : Frame} {contract : Address}
    (h : contract ∈ w.engine.activeCallStack) (sender : Address) (msg : Bytes) (funds : Amount)
    (Q : ContractResponse → Frame → Prop) :
    ¬ Returns (execute P contract sender msg funds) w Q := by
  cases hinfo : w.engine.getContractInfo contract with
  | none => simp [execute, hinfo]
  | some info => simp [execute, hinfo, h]

theorem uncallable_of_mem_stack {vm : WasmContractEngine} {contract : Address}
    (h : contract ∈ vm.activeCallStack) (requests : List Request) (env : Env) (gas : GasMeter)
    (sender : Address) (msg : Bytes) (funds : Amount) :
    ¬ Returns (execute P contract sender msg funds) ⟨run (serve P) vm requests, env, gas⟩
      (fun _ _ => True) := by
  have hlater : contract ∈ (run (serve P) vm requests).activeCallStack :=
    run_invariant (I := fun vm => contract ∈ vm.activeCallStack)
      (fun vm r hvm => mem_stack_serve hvm r) vm requests h
  generalize run (serve P) vm requests = later at hlater
  exact not_returns_of_mem_stack (w := ⟨later, env, gas⟩) hlater sender msg funds _

theorem mem_stack_of_strands {w : Frame} {contract : Address} {msg : Bytes}
    (h : Strands w contract msg) (sender : Address) (funds : Amount) :
    contract ∈ (leaves (execute P contract sender msg funds) w).engine.activeCallStack := by
  rw [execute_stack, if_pos h]
  exact Finset.mem_insert_self _ _

/-- A stranded contract is never called again, whatever the engine is asked to do
in between. -/
theorem uncallable_of_strands {w : Frame} {contract : Address} {msg : Bytes}
    (h : Strands w contract msg) (sender : Address) (funds : Amount) (requests : List Request)
    (env : Env) (gas : GasMeter) (sender' : Address) (msg' : Bytes) (funds' : Amount) :
    ¬ Returns (execute P contract sender' msg' funds')
      ⟨run (serve P) (leaves (execute P contract sender msg funds) w).engine requests, env, gas⟩
      (fun _ _ => True) :=
  uncallable_of_mem_stack (mem_stack_of_strands h sender funds) requests env gas sender' msg' funds'

section Development
open Devnet

/-- An engine with one contract. -/
def devEngine : WasmContractEngine :=
  run (serve primitives) new
    [.storeCode (addressOf 1) [0, 97, 115, 109] 1,
      .instantiate (addressOf 1) 1 "counter" none Amount.zero ⟨1, Address.zero⟩ (.new 10000)]

def devContract : Address := contractAddress primitives (addressOf 1) 1 0 "counter"

/-- A call with a message of two bytes and one unit of gas beyond the base charge. -/
def devFrame : Frame := ⟨devEngine, ⟨2, Address.zero⟩, .new 2001⟩

/-- The call leaves its contract on the stack, and the next one does not go through,
however much gas it has. -/
theorem stranded_call :
    devFrame.engine.activeCallStack = ∅ ∧
    (leaves (execute primitives devContract (addressOf 2) [1, 2] Amount.zero)
      devFrame).engine.activeCallStack = insert devContract ∅ ∧
    ¬ Returns (execute primitives devContract (addressOf 2) [] Amount.zero)
      ⟨(leaves (execute primitives devContract (addressOf 2) [1, 2] Amount.zero) devFrame).engine,
        ⟨3, Address.zero⟩, .new u64Max⟩ (fun _ _ => True) := by
  have hempty : devFrame.engine.activeCallStack = ∅ := by decide +kernel
  have hstrands : Strands devFrame devContract [1, 2] := by decide +kernel
  refine ⟨hempty, ?_, uncallable_of_strands hstrands _ _ [] _ _ _ _ _⟩
  rw [execute_stack, if_pos hstrands, hempty]

end Development

end WasmContractEngine

end Sprax.Wasm
