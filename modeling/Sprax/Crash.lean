import Sprax.Writes

/-!
# Stopping in the middle of a block

A process can stop between any two writes of a block. Until the height is written
the store still opens as the old chain: no earlier write touches the old height,
the old blocks or, beyond recognition, their index entries. The accounts, however,
are the new ones from the first account write on, and their root is then not the
one in the latest header. Nonces make the difference visible: the first account
write of every transaction raises the nonce of its sender.
-/
namespace Sprax
open Std FiniteMap StateAccessor Relation

/-- Writes that a reader of the blocks up to `height` does not notice. -/
inductive Write.Quiet (P : Primitives) (height : ℕ) : Write → Prop
  | account (key value : Bytes) : Quiet P height (.account key value)
  | entry (hash : Hash32) (e : Transaction × TxReceipt × ℕ) : Quiet P height (.putTxIndex P hash e)
  | hash (hash : Hash32) (h : ℕ) : Quiet P height (.putBlockHashIndex hash h)
  | block (block : Block) : Quiet P height (.putBlock P (height + 1) block)

variable {P : Primitives}

theorem Write.Quiet.ne_putHeight {height : ℕ} {w : Write} (h : w.Quiet P height) (n : ℕ) :
    w ≠ .putHeight n := by
  intro he
  have hkey {k k' v v' : Bytes} (hw : Write.chainMeta k v = .chainMeta k' v') : k.length =
      k'.length := by
    cases hw
    rfl
  cases h with
  | account key value => cases he
  | entry hash e =>
    have hlen := hkey he
    rw [Store.length_txKey, Store.length_heightKey] at hlen
    omega
  | hash hash n =>
    have hlen := hkey he
    rw [Store.length_blockHashKey, Store.length_heightKey] at hlen
    omega
  | block block =>
    have hlen := hkey he
    rw [Store.length_blockKey, Store.length_heightKey] at hlen
    omega

namespace Store

theorem Holds.write {s : Store} {blocks : List Block} (hs : s.Holds P blocks) {height : ℕ}
    (hlen : blocks.length = height + 1) (hfit : height + 1 < 2 ^ 64) {w : Write}
    (hw : w.Quiet P height) : (s.write w).Holds P blocks := by
  cases hw with
  | account key value => exact ⟨hs.height_eq, hs.block_eq, hs.indexed⟩
  | entry hash e =>
    show (s.putTxIndex hash (P.txEntryJson.toVec e)).Holds P blocks
    refine ⟨by simpa using hs.height_eq, by simpa using hs.block_eq, ?_⟩
    intro hash' hmem
    rw [getTxIndex_putTxIndex]
    split
    · exact ⟨e, rfl⟩
    · exact hs.indexed hash' hmem
  | hash hash n =>
    show (s.putBlockHashIndex hash n).Holds P blocks
    exact ⟨by simpa using hs.height_eq, by simpa using hs.block_eq, by simpa using hs.indexed⟩
  | block block =>
    show (s.putBlock (height + 1) (P.blockJson.toVec block)).Holds P blocks
    refine ⟨by simpa using hs.height_eq, ?_, by simpa using hs.indexed⟩
    intro i b hi
    have hlt : i < blocks.length := (List.getElem?_eq_some_iff.mp hi).1
    rw [getBlock_putBlock_ne _ _ hfit (by omega) (by omega)]
    exact hs.block_eq i b hi

theorem Holds.writeAll {s : Store} {blocks : List Block} (hs : s.Holds P blocks) {height : ℕ}
    (hlen : blocks.length = height + 1) (hfit : height + 1 < 2 ^ 64) {ws : List Write}
    (hws : ∀ w ∈ ws, w.Quiet P height) : (s.writeAll ws).Holds P blocks := by
  induction ws generalizing s with
  | nil => exact hs
  | cons w ws ih =>
    obtain ⟨hw, hrest⟩ := List.forall_mem_cons.mp hws
    exact ih (hs.write hlen hfit hw) hrest

end Store

/-- No prefix of the writes lowers a nonce, and each prefix that writes an account
raises one, unless nonces have saturated. -/
structure Advances (P : Primitives) (s : Store) (ws : List Write) : Prop where
  kept : ∀ vs, vs <+: ws → ∀ a, nonceOf P s a ≤ nonceOf P (s.writeAll vs) a
  raised : (∀ a, nonceOf P s a < u64Max) → ∀ vs, vs <+: ws →
    (∀ w ∈ vs, w.isAccount = false) ∨ ∃ a, nonceOf P s a < nonceOf P (s.writeAll vs) a

/-- A cut of two sequences falls into the first or into the second. -/
theorem cut_of_append {α : Type} {us ws vs : List α} (h : us <+: ws ++ vs) :
    us <+: ws ∨ ∃ rest, us = ws ++ rest ∧ rest <+: vs := by
  by_cases hlen : us.length ≤ ws.length
  · exact Or.inl (List.prefix_of_prefix_length_le h (List.prefix_append ws vs) hlen)
  · obtain ⟨rest, rfl⟩ := List.prefix_of_prefix_length_le (List.prefix_append ws vs) h (by omega)
    exact Or.inr ⟨rest, rfl, (List.prefix_append_right_inj ws).mp h⟩

theorem advances_quiet {ws : List Write} (h : ∀ w ∈ ws, w.isAccount = false) (s : Store) :
    Advances P s ws := by
  refine ⟨?_, ?_⟩
  · intro vs hvs a
    have hstate := Store.writeAll_state (fun w hw => h w (hvs.subset hw)) s
    rw [nonceOf_congr hstate]
  · intro _ vs hvs
    exact Or.inl (fun w hw => h w (hvs.subset hw))

theorem Advances.append {s : Store} {ws vs : List Write} (h : Advances P s ws)
    (h' : Advances P (s.writeAll ws) vs) : Advances P s (ws ++ vs) := by
  refine ⟨?_, ?_⟩
  · intro us hus a
    rcases cut_of_append hus with hleft | ⟨vs', rfl, hvs'⟩
    · exact h.kept us hleft a
    · rw [Store.writeAll_append]
      exact (h.kept ws List.prefix_rfl a).trans (h'.kept vs' hvs' a)
  · intro hmax us hus
    rcases cut_of_append hus with hleft | ⟨vs', rfl, hvs'⟩
    · exact h.raised hmax us hleft
    · rw [Store.writeAll_append]
      rcases h.raised hmax ws List.prefix_rfl with hnone | ⟨a, ha⟩
      · have hstate := Store.writeAll_state hnone s
        have hsame (a : Address) : nonceOf P (s.writeAll ws) a = nonceOf P s a :=
          nonceOf_congr hstate a
        rcases h'.raised (fun a => hsame a ▸ hmax a) vs' hvs' with hnone' | ⟨a, ha⟩
        · exact Or.inl (List.forall_mem_append.mpr ⟨hnone, hnone'⟩)
        · exact Or.inr ⟨a, hsame a ▸ ha⟩
      · exact Or.inr ⟨a, Nat.lt_of_lt_of_le ha (h'.kept vs' hvs' a)⟩

/-- Credits leave all nonces as they are, after each of them. -/
theorem nonceOf_creditWrites {s : Store} {msgs : List TxMessage} {vs : List Write}
    (hvs : vs <+: TxExecutor.creditWrites P s msgs) (a : Address) :
    nonceOf P (s.writeAll vs) a = nonceOf P s a := by
  induction s, msgs using TxExecutor.creditMessages.induct P generalizing vs with
  | case1 s =>
    rw [TxExecutor.creditWrites, List.prefix_nil] at hvs
    rw [hvs, Store.writeAll_nil]
  | case2 s recipient amount rest e hread =>
    simp only [TxExecutor.creditWrites, hread, List.prefix_nil] at hvs
    rw [hvs, Store.writeAll_nil]
  | case3 s recipient amount rest account hread e hadd =>
    simp only [TxExecutor.creditWrites, hread, hadd, List.prefix_nil] at hvs
    rw [hvs, Store.writeAll_nil]
  | case4 s recipient amount rest account hread balance hadd ih =>
    simp only [TxExecutor.creditWrites, hread, hadd] at hvs
    rcases List.prefix_cons_iff.mp hvs with rfl | ⟨vs', rfl, hvs'⟩
    · rfl
    · have hfirst : nonceOf P (setAccount P s recipient { account with balance := balance }) a =
          nonceOf P s a := by
        rw [nonceOf_setAccount]
        split
        · rename_i ha
          rw [← ha, nonceOf_of_ok hread]
        · rfl
      exact (ih hvs').trans hfirst
  | case5 s msg rest hne ih =>
    rw [TxExecutor.creditWrites] at hvs
    · exact ih hvs
    · exact hne

theorem advances_executeWrites (s : Store) (tx : Transaction) (chainId : String) :
    Advances P s (TxExecutor.executeWrites P s tx chainId) := by
  cases hcharge : TxExecutor.chargeSender P s tx chainId with
  | error e =>
    simp only [TxExecutor.executeWrites, hcharge]
    exact advances_quiet (by simp) s
  | ok new =>
    obtain ⟨old, hold⟩ := TxExecutor.chargeSender_ok hcharge
    have hfirst (a : Address) : nonceOf P (setAccount P s tx.body.sender new) a =
        if tx.body.sender = a then saturatingSucc (nonceOf P s a) else nonceOf P s a := by
      rw [nonceOf_setAccount]
      by_cases ha : tx.body.sender = a
      · rw [if_pos ha, if_pos ha, ← ha, nonceOf_of_ok hold.read, hold.nonce_new]
      · rw [if_neg ha, if_neg ha]
    simp only [TxExecutor.executeWrites, hcharge]
    refine ⟨?_, ?_⟩
    · intro vs hvs a
      rcases List.prefix_cons_iff.mp hvs with rfl | ⟨vs', rfl, hvs'⟩
      · exact le_rfl
      · have hcredits := nonceOf_creditWrites hvs' a
        have hle := le_saturatingSucc (nonceOf P s a)
        rw [hfirst a] at hcredits
        rw [Store.writeAll_cons]
        refine Nat.le_trans ?_ (Nat.le_of_eq hcredits.symm)
        split <;> omega
    · intro hmax vs hvs
      rcases List.prefix_cons_iff.mp hvs with rfl | ⟨vs', rfl, hvs'⟩
      · exact Or.inl (by simp)
      · have hcredits := nonceOf_creditWrites hvs' tx.body.sender
        rw [hfirst, if_pos rfl, saturatingSucc_of_lt (hmax _)] at hcredits
        refine Or.inr ⟨tx.body.sender, ?_⟩
        rw [Store.writeAll_cons]
        exact Nat.lt_of_lt_of_eq (Nat.lt_succ_self _) hcredits.symm

theorem creditWrites_quiet (s : Store) (msgs : List TxMessage) (H : ℕ) :
    ∀ w ∈ TxExecutor.creditWrites P s msgs, w.Quiet P H := by
  induction s, msgs using TxExecutor.creditMessages.induct P with
  | case1 s => simp [TxExecutor.creditWrites]
  | case2 s recipient amount rest e hread => simp [TxExecutor.creditWrites, hread]
  | case3 s recipient amount rest account hread e hadd =>
    simp [TxExecutor.creditWrites, hread, hadd]
  | case4 s recipient amount rest account hread balance hadd ih =>
    simp only [TxExecutor.creditWrites, hread, hadd]
    exact List.forall_mem_cons.mpr ⟨.account _ _, ih⟩
  | case5 s msg rest hne ih =>
    rw [TxExecutor.creditWrites]
    · exact ih
    · exact hne

theorem executeWrites_quiet (s : Store) (tx : Transaction) (chainId : String) (H : ℕ) :
    ∀ w ∈ TxExecutor.executeWrites P s tx chainId, w.Quiet P H := by
  unfold TxExecutor.executeWrites
  split
  · simp
  · exact List.forall_mem_cons.mpr ⟨.account _ _, creditWrites_quiet _ _ H⟩

namespace ChainLedger

theorem turnWrites_advances (executor : TxExecutor) (height : ℕ) (chainId : String) (b : Batch)
    (tx : Transaction) : Advances P b.store (turnWrites P executor height chainId b tx) := by
  refine (advances_executeWrites b.store tx chainId).append (advances_quiet ?_ _)
  split
  · simp [Write.putTxIndex, Write.isAccount]
  · simp

theorem turnWrites_quiet (executor : TxExecutor) (height : ℕ) (chainId : String) (b : Batch)
    (tx : Transaction) (H : ℕ) :
    ∀ w ∈ turnWrites P executor height chainId b tx, w.Quiet P H := by
  refine List.forall_mem_append.mpr ⟨executeWrites_quiet b.store tx chainId H, ?_⟩
  split
  · simpa using Write.Quiet.entry _ _
  · simp

theorem Logged.quiet {L : ChainLedger} {b : Batch} {ws : List Write} (h : Logged P L b ws) :
    ∀ w ∈ ws, w.Quiet P L.height := by
  induction h with
  | start => simp
  | turn h tx ih => exact List.forall_mem_append.mpr ⟨ih, turnWrites_quiet _ _ _ _ _ _⟩

theorem Logged.advances {L : ChainLedger} {b : Batch} {ws : List Write} (h : Logged P L b ws) :
    Advances P L.store ws := by
  induction h with
  | start => exact advances_quiet (by simp) L.store
  | turn h tx ih =>
    refine ih.append ?_
    rw [h.store_eq]
    exact turnWrites_advances _ _ _ _ _

theorem advances_writes (L : ChainLedger) (c : BlockCall) : Advances P L.store (L.writes P c) := by
  obtain ⟨b, ws, hlogged, ⟨hwrites, -⟩ | ⟨block, hwrites, -, -⟩⟩ := L.writes_shape (P := P) c
  · rw [hwrites]
    exact hlogged.advances
  · rw [hwrites]
    refine hlogged.advances.append (advances_quiet ?_ _)
    simp [commitWrites, Write.putBlock, Write.putBlockHashIndex, Write.putHeight, Write.isAccount]

/-- A cut of the writes of a block lies before the height write and goes unnoticed,
or it is the whole sequence of a block that is kept. -/
theorem cut_of_writes {L : ChainLedger} {c : BlockCall} {ws : List Write}
    (hws : ws <+: L.writes P c) :
    (∀ w ∈ ws, w.Quiet P L.height) ∨
      ws = L.writes P c ∧ .putHeight (L.height + 1) ∈ ws ∧ (L.makeBlock P c).InSync P := by
  obtain ⟨b, loop, hlogged, ⟨hwrites, -⟩ | ⟨block, hwrites, -, hsync⟩⟩ := L.writes_shape (P := P) c
  · rw [hwrites] at hws
    exact Or.inl (fun w hw => hlogged.quiet w (hws.subset hw))
  · have hsplit : L.writes P c =
        (loop ++ [.putBlock P (L.height + 1) block,
          .putBlockHashIndex (Hasher.blockHash P block.header) (L.height + 1)]) ++
          [.putHeight (L.height + 1)] := by
      rw [hwrites, commitWrites]
      simp
    rw [hsplit] at hws
    rcases List.prefix_concat_iff.mp hws with hwhole | hbefore
    · refine Or.inr ⟨hwhole.trans hsplit.symm, ?_, hsync⟩
      rw [hwhole]
      exact List.mem_append_right _ List.mem_cons_self
    · refine Or.inl (fun w hw => ?_)
      rcases List.mem_append.mp (hbefore.subset hw) with hloop | htail
      · exact hlogged.quiet w hloop
      · rcases List.mem_cons.mp htail with rfl | htail
        · exact .block block
        · rw [List.mem_singleton.mp htail]
          exact .hash _ _

/-- The store opens as a ledger that is in step with its latest header. -/
def Recovers (P : Primitives) (genesis : GenesisConfig) (s : Store) : Prop :=
  ∃ L, openOrInit P s genesis = .ok L ∧ L.InSync P

instance (P : Primitives) (genesis : GenesisConfig) (s : Store) :
    Decidable (Recovers P genesis s) :=
  match hopen : openOrInit P s genesis with
  | .ok L => decidable_of_iff (L.InSync P) (by simp [Recovers, hopen])
  | .error _ => isFalse (by simp [Recovers, hopen])

/-- Before the height is written the store opens as the old chain. -/
theorem recovers_quiet {L : ChainLedger} (hholds : L.store.Holds P L.blocks)
    (hfit : L.height + 1 < 2 ^ 64) {ws : List Write} (hws : ∀ w ∈ ws, w.Quiet P L.height)
    (genesis : GenesisConfig) :
    Recovers P genesis (L.store.writeAll ws) ↔
      (L.store.writeAll ws).computeRoot P = L.latestHeader.stateRoot := by
  obtain ⟨L', hopen, hL'⟩ :=
    openOrInit_holds (hholds.writeAll L.length_blocks hfit hws) L.blocks_ne genesis
  have hroot : L'.stateRoot P = (L.store.writeAll ws).computeRoot P := by
    rw [stateRoot, hL'.store_eq]
  have hlatest : L'.latestHeader = L.latestHeader := by
    simp only [latestHeader, latestBlock, hL'.blocks_eq]
  constructor
  · rintro ⟨L'', hopen', hsync⟩
    rw [hopen] at hopen'
    cases hopen'
    rw [← hroot, ← hlatest]
    exact hsync
  · intro hsame
    refine ⟨L', hopen, ?_⟩
    rw [InSync, hroot, hlatest]
    exact hsame

theorem makeBlock_moves (L : ChainLedger) (c : BlockCall) :
    ReflTransGen (Move P) L (L.makeBlock P c) := by
  cases c with
  | mine proposer => exact .single (.advance (L.mineBlock_advance proposer))
  | apply block => exact L.applyBlock_moves block

/-- After the whole sequence the store opens as the new chain. -/
theorem recovers_whole {L : ChainLedger} (hpersisted : L.Persisted P) {c : BlockCall}
    (hfit : (L.makeBlock P c).height < 2 ^ 64) (hsync : (L.makeBlock P c).InSync P)
    (genesis : GenesisConfig) : Recovers P genesis (L.store.writeAll (L.writes P c)) := by
  have hholds := preserved_of_moves (I := Persisted P) (fun _ _ hmove h => h.move hmove)
    (L.makeBlock_moves c) hpersisted hfit
  obtain ⟨L', hopen, hL'⟩ := openOrInit_holds hholds (L.makeBlock P c).blocks_ne genesis
  rw [writeAll_writes]
  refine ⟨L', hopen, ?_⟩
  rw [InSync, stateRoot, hL'.store_eq, latestHeader, latestBlock]
  simp only [hL'.blocks_eq]
  exact hsync

theorem makeBlock_height_le (L : ChainLedger) (c : BlockCall) :
    (L.makeBlock P c).height ≤ L.height + 1 := by
  cases c with
  | mine proposer => exact Nat.le_of_eq (L.mineBlock_height proposer)
  | apply block =>
    rcases applyBlock_headers (P := P) L block with hsame | ⟨-, happend⟩
    · exact Nat.le_succ_of_le <| height_le_of_headers_prefix (hsame ▸ List.prefix_rfl)
    · exact Nat.le_of_eq (height_of_headers_append happend)

theorem latestHeader_of_headers {L L' : ChainLedger} (h : L'.headers = L.headers) :
    L'.latestHeader = L.latestHeader := by
  have hlast := L'.getLast?_headers
  rw [h, getLast?_headers] at hlast
  exact (Option.some.inj hlast).symm

theorem InSync.advance {L L' : ChainLedger} (h : L.InSync P) (hmove : Advance P L L') :
    L'.InSync P := by
  cases hmove with
  | pooled txs => exact h
  | appended b block txs hworks hext hbody hroots =>
    exact inSync_commitBlock (L := L) hroots block.header.height
  | @resigned height block sigs hblock =>
    have hstate : (L.setLastCommit P height sigs).1.store.state = L.store.state := by
      rw [(setLastCommit_some hblock sigs).1]
      rfl
    rw [InSync, latestHeader_of_headers (L.setLastCommit_headers height sigs), stateRoot,
      Store.computeRoot, hstate]
    exact h

/-- A ledger whose operations all returned `Ok` is in step with its latest header. -/
theorem inSync_reached {genesis : GenesisConfig} {store : Store} {ops : List LedgerOp}
    (hok : Runs.Along (fun L op => L.succeeds P op = true) (operate P)
      (initFromGenesisWithStore P genesis store) ops) : (reached P genesis store ops).InSync P :=
  reached_of_advances (I := InSync P) (fun _ _ hmove h => h.advance hmove) rfl hok

/-- Circumstances in which account writes need not show in the state root: the
ledger was out of step before, a nonce has saturated, or two states collide. -/
def Masked (P : Primitives) (L : ChainLedger) (ws : List Write) : Prop :=
  (∃ w ∈ ws, w.isAccount = true) ∧
    (¬ L.InSync P ∨ (∃ a, u64Max ≤ nonceOf P L.store a) ∨
      (L.store.writeAll ws).computeRoot P = L.store.computeRoot P ∧
        (L.store.writeAll ws).state ≠ L.store.state)

/-- A process that stops in the middle of a block recovers if the height is already
written, or if no account is written yet and the ledger was in step with its latest
header; otherwise it does not, unless the account writes are masked. -/
theorem crash_recovers_iff (genesis : GenesisConfig) (store : Store) (ops : List LedgerOp)
    (hfit : (reached P genesis store ops).height + 1 < 2 ^ 64) (c : BlockCall) {ws : List Write}
    (hws : ws <+: (reached P genesis store ops).writes P c) :
    (.putHeight ((reached P genesis store ops).height + 1) ∈ ws ∨
        ((reached P genesis store ops).InSync P ∧ ∀ w ∈ ws, w.isAccount = false) →
      Recovers P genesis ((reached P genesis store ops).store.writeAll ws)) ∧
    (Recovers P genesis ((reached P genesis store ops).store.writeAll ws) →
      .putHeight ((reached P genesis store ops).height + 1) ∈ ws ∨
        ((reached P genesis store ops).InSync P ∧ ∀ w ∈ ws, w.isAccount = false) ∨
        (reached P genesis store ops).Masked P ws) := by
  have hpersisted := persisted_reached (P := P) genesis store ops
  generalize reached P genesis store ops = L at hfit hws hpersisted ⊢
  have hholds := hpersisted (by omega)
  constructor
  · intro hcond
    rcases cut_of_writes hws with hquiet | ⟨rfl, -, hsync⟩
    · rw [recovers_quiet hholds hfit hquiet]
      rcases hcond with hwritten | ⟨hsync, hnone⟩
      · exact absurd rfl ((hquiet _ hwritten).ne_putHeight _)
      · rw [Store.computeRoot, Store.writeAll_state hnone]
        exact hsync
    · have hle := L.makeBlock_height_le (P := P) c
      exact recovers_whole hpersisted (by omega) hsync genesis
  · intro hrecovers
    rcases cut_of_writes hws with hquiet | ⟨-, hwritten, -⟩
    · rw [recovers_quiet hholds hfit hquiet] at hrecovers
      refine Or.inr ?_
      by_cases hnone : ∀ w ∈ ws, w.isAccount = false
      · rw [Store.computeRoot, Store.writeAll_state hnone] at hrecovers
        exact Or.inl ⟨hrecovers, hnone⟩
      · refine Or.inr ⟨by simpa using hnone, ?_⟩
        by_cases hsync : L.InSync P
        · refine Or.inr ?_
          by_cases hmax : ∀ a, nonceOf P L.store a < u64Max
          · obtain ⟨a, ha⟩ := ((L.advances_writes c).raised hmax ws hws).resolve_left hnone
            refine Or.inr ⟨hrecovers.trans hsync.symm, fun hstate => ?_⟩
            rw [nonceOf_congr hstate] at ha
            exact absurd ha (Nat.lt_irrefl _)
          · obtain ⟨a, ha⟩ := not_forall.mp hmax
            exact Or.inl ⟨a, Nat.le_of_not_lt ha⟩
        · exact Or.inl hsync
    · exact Or.inl hwritten

open Devnet in
/-- A ledger with one transfer in its mempool, about to mine. -/
def pendingOps : List LedgerOp := [.call (.submit (transferTx 0))]

open Devnet in
/-- The first `n` writes of the block that is mined from `pendingOps`. -/
def pendingWrites (n : ℕ) : List Write :=
  ((reached primitives (devGenesis []) Store.empty pendingOps).writes primitives
    (.mine (addressOf 9))).take n

open Devnet in
/-- Stopped after the first write of its block, the one that charges the sender, the
miner starts again at height 0 with accounts that no header describes. -/
theorem crash_after_first_write :
    pendingWrites 1 <+: (reached primitives (devGenesis []) Store.empty pendingOps).writes
        primitives (.mine (addressOf 9)) ∧
      ¬ Recovers primitives (devGenesis [])
        ((reached primitives (devGenesis []) Store.empty pendingOps).store.writeAll
          (pendingWrites 1)) :=
  ⟨List.take_prefix _ _, by decide +kernel⟩

open Devnet in
/-- Of the block's six writes, a cut at none recovers, and so does the whole; a cut
after the first does not. -/
theorem crash_recovers_iff_devnet :
    Recovers primitives (devGenesis [])
        ((reached primitives (devGenesis []) Store.empty pendingOps).store.writeAll
          (pendingWrites 0)) ∧
      Recovers primitives (devGenesis [])
        ((reached primitives (devGenesis []) Store.empty pendingOps).store.writeAll
          (pendingWrites 6)) :=
  ⟨(crash_recovers_iff (devGenesis []) Store.empty pendingOps (by decide +kernel)
      (.mine (addressOf 9)) (List.take_prefix 0 _)).1 (Or.inr (by decide +kernel)),
    (crash_recovers_iff (devGenesis []) Store.empty pendingOps (by decide +kernel)
      (.mine (addressOf 9)) (List.take_prefix 6 _)).1 (Or.inl (by decide +kernel))⟩

end ChainLedger

end Sprax
