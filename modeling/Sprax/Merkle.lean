import Sprax.Collisions
import Sprax.Moves

/-!
# What a Merkle root determines

The tree duplicates an odd last node and hashes leaves and pairs alike, so
different lists can have one root without any collision: one list then goes on
where the other ends, and repeats nodes that it already has. Two trees of
different depth would give a leaf the hash of a pair, which cannot happen if
leaves are hashes of longer strings. A block that repeats a transaction is
refused by the nonce check, so a header determines the body.
-/
namespace Sprax
open Std Collisions Relation

namespace Hasher

/-- The strings that one level hashes. -/
def levelStrings : List Hash32 → List Bytes
  | [] => []
  | [a] => [a.bytes ++ a.bytes]
  | a :: b :: rest => (a.bytes ++ b.bytes) :: levelStrings rest

variable (P : Primitives)

/-- The strings that the loop hashes, level by level. -/
def loopStrings : ℕ → List Hash32 → List Bytes
  | 0, _ => []
  | fuel + 1, current =>
    if 1 < current.length then levelStrings current ++ loopStrings fuel (merkleLevel P current)
    else []

/-- All strings that are hashed above the leaves. -/
def merkleStrings (hs : List Hash32) : List Bytes := loopStrings P hs.length hs

variable {P}

theorem merkleLevel_eq_map (hs : List Hash32) :
    merkleLevel P hs = (levelStrings hs).map P.blake3 := by
  induction hs using merkleLevel.induct with
  | case1 => rfl
  | case2 a => rfl
  | case3 a b rest ih => simp only [merkleLevel, levelStrings, List.map_cons, ih]

theorem of_mem_levelStrings {hs : List Hash32} {s : Bytes} (h : s ∈ levelStrings hs) :
    ∃ a ∈ hs, ∃ b ∈ hs, s = a.bytes ++ b.bytes := by
  induction hs using levelStrings.induct with
  | case1 => cases h
  | case2 a =>
    rw [levelStrings, List.mem_singleton] at h
    exact ⟨a, List.mem_singleton_self a, a, List.mem_singleton_self a, h⟩
  | case3 a b rest ih =>
    rcases List.mem_cons.mp h with h | h
    · exact ⟨a, by simp, b, by simp, h⟩
    · obtain ⟨x, hx, y, hy, hs⟩ := ih h
      exact ⟨x, by simp [hx], y, by simp [hy], hs⟩

theorem exists_levelString {hs : List Hash32} {a : Hash32} (h : a ∈ hs) :
    ∃ b : Hash32, a.bytes ++ b.bytes ∈ levelStrings hs ∨ b.bytes ++ a.bytes ∈ levelStrings hs := by
  induction hs using levelStrings.induct with
  | case1 => cases h
  | case2 x =>
    cases List.mem_singleton.mp h
    exact ⟨a, Or.inl (by simp [levelStrings])⟩
  | case3 x y rest ih =>
    rcases List.mem_cons.mp h with rfl | h
    · exact ⟨y, Or.inl (by simp [levelStrings])⟩
    rcases List.mem_cons.mp h with rfl | h
    · exact ⟨x, Or.inr (by simp [levelStrings])⟩
    obtain ⟨b, hb⟩ := ih h
    exact ⟨b, hb.imp (List.mem_cons_of_mem _) (List.mem_cons_of_mem _)⟩

theorem append_bytes_inj {a b c d : Hash32} (h : a.bytes ++ b.bytes = c.bytes ++ d.bytes) :
    a = c ∧ b = d := by
  obtain ⟨hleft, hright⟩ := List.append_inj h (a.length_eq.trans c.length_eq.symm)
  exact ⟨Hash32.ext_bytes hleft, Hash32.ext_bytes hright⟩

/-- Two lists of which one goes on where the other ends, with the same members. -/
structure Echoes (as bs : List Hash32) : Prop where
  extends_or : as <+: bs ∨ bs <+: as
  mem_iff : ∀ h, h ∈ as ↔ h ∈ bs

/-- The hashed strings of a level extend each other only if the nodes do. -/
theorem extends_of_levelStrings {as bs : List Hash32} (h : levelStrings as <+: levelStrings bs) :
    as <+: bs ∨ bs <+: as := by
  induction as using levelStrings.induct generalizing bs with
  | case1 => exact Or.inl List.nil_prefix
  | case2 a =>
    match bs with
    | [] => simp [levelStrings] at h
    | [b] =>
      simp only [levelStrings, List.cons_prefix_cons] at h
      rw [(append_bytes_inj h.1).1]
      exact Or.inl List.prefix_rfl
    | b :: b' :: rest =>
      simp only [levelStrings, List.cons_prefix_cons] at h
      rw [(append_bytes_inj h.1).1]
      exact Or.inl (by simp)
  | case3 a a' rest ih =>
    match bs with
    | [] => simp [levelStrings] at h
    | [b] =>
      simp only [levelStrings, List.cons_prefix_cons] at h
      rw [(append_bytes_inj h.1).1]
      exact Or.inr (by simp)
    | b :: b' :: rest' =>
      simp only [levelStrings, List.cons_prefix_cons] at h
      obtain ⟨hleft, hright⟩ := append_bytes_inj h.1
      rw [hleft, hright]
      simpa only [List.cons_prefix_cons, true_and] using ih h.2

theorem mem_of_levelStrings {as bs : List Hash32} (h : levelStrings bs ⊆ levelStrings as)
    {x : Hash32} (hx : x ∈ bs) : x ∈ as := by
  obtain ⟨y, hy⟩ := exists_levelString hx
  rcases hy with hy | hy
  · obtain ⟨a, ha, b, hb, heq⟩ := of_mem_levelStrings (h hy)
    exact (append_bytes_inj heq).1 ▸ ha
  · obtain ⟨a, ha, b, hb, heq⟩ := of_mem_levelStrings (h hy)
    exact (append_bytes_inj heq).2 ▸ hb

/-- Without collisions, levels echo each other only if the levels below do. -/
theorem Echoes.of_level {zs : List Bytes} (hz : ¬ Collides P.blake3 zs) {as bs : List Hash32}
    (ha : levelStrings as ⊆ zs) (hb : levelStrings bs ⊆ zs)
    (h : Echoes (merkleLevel P as) (merkleLevel P bs)) : Echoes as bs := by
  obtain ⟨hextends, hmem⟩ := h
  rw [merkleLevel_eq_map, merkleLevel_eq_map] at hextends
  have hstrings (s : Bytes) : s ∈ levelStrings as ↔ s ∈ levelStrings bs := by
    have hhash := hmem (P.blake3 s)
    rw [merkleLevel_eq_map, merkleLevel_eq_map, List.mem_map, List.mem_map] at hhash
    constructor
    · intro hs
      obtain ⟨t, ht, heq⟩ := hhash.mp ⟨s, hs, rfl⟩
      rwa [← eq_of_hash_eq hz (hb ht) (ha hs) heq]
    · intro hs
      obtain ⟨t, ht, heq⟩ := hhash.mpr ⟨s, hs, rfl⟩
      rwa [← eq_of_hash_eq hz (ha ht) (hb hs) heq]
  refine ⟨?_, fun x => ⟨mem_of_levelStrings (fun s => (hstrings s).mp),
    mem_of_levelStrings (fun s => (hstrings s).mpr)⟩⟩
  rcases hextends with h | h
  · exact extends_of_levelStrings (isPrefix_of_map hz ha hb h)
  · exact (extends_of_levelStrings (isPrefix_of_map hz hb ha h)).symm

/-- The nodes some levels above the given ones. -/
def levels (P : Primitives) (d : ℕ) (hs : List Hash32) : List Hash32 := (merkleLevel P)^[d] hs

theorem levels_succ (d : ℕ) (hs : List Hash32) :
    levels P (d + 1) hs = merkleLevel P (levels P d hs) := Function.iterate_succ_apply' _ _ _

/-- Everything that is hashed below a level is among the given strings. -/
def HashedBelow (P : Primitives) (zs : List Bytes) (d : ℕ) (hs : List Hash32) : Prop :=
  ∀ i < d, levelStrings (levels P i hs) ⊆ zs

theorem merkleLoop_levels (fuel : ℕ) (hs : List Hash32) :
    ∃ d, merkleLoop P fuel hs = levels P d hs ∧ HashedBelow P (loopStrings P fuel hs) d hs := by
  induction fuel generalizing hs with
  | zero => exact ⟨0, rfl, fun i hi => absurd hi (Nat.not_lt_zero i)⟩
  | succ fuel ih =>
    by_cases hlong : 1 < hs.length
    · obtain ⟨d, hloop, hbelow⟩ := ih (merkleLevel P hs)
      refine ⟨d + 1, ?_, fun i hi => ?_⟩
      · rw [merkleLoop, if_pos hlong, hloop]
        exact (Function.iterate_succ_apply _ _ _).symm
      · rw [loopStrings, if_pos hlong]
        cases i with
        | zero => exact List.subset_append_left _ _
        | succ i =>
          have hi' := hbelow i (Nat.lt_of_succ_lt_succ hi)
          exact List.Subset.trans hi' (List.subset_append_right _ _)
    · refine ⟨0, ?_, fun i hi => absurd hi (Nat.not_lt_zero i)⟩
      rw [merkleLoop, if_neg hlong]
      rfl

/-- The root is the only node of some level. -/
theorem merkleRoot_levels {hs : List Hash32} (hne : hs ≠ []) :
    ∃ d, levels P d hs = [merkleRoot P hs] ∧ HashedBelow P (merkleStrings P hs) d hs := by
  match hs with
  | [] => exact absurd rfl hne
  | [h] => exact ⟨0, rfl, fun i hi => absurd hi (Nat.not_lt_zero i)⟩
  | a :: b :: rest =>
    obtain ⟨d, hloop, hbelow⟩ := merkleLoop_levels (P := P) (a :: b :: rest).length (a :: b :: rest)
    refine ⟨d, ?_, hbelow⟩
    have hone := length_merkleLoop P _ (a :: b :: rest) hne (Nat.le_succ _)
    rw [hloop] at hone
    obtain ⟨root, hroot⟩ := List.length_eq_one_iff.mp hone
    have hmerkle : merkleRoot P (a :: b :: rest) =
        (levels P d (a :: b :: rest)).headD Hash32.zero :=
      congrArg (fun l => l.headD Hash32.zero) hloop
    rw [hmerkle, hroot]
    rfl

/-- Every leaf is the hash of a string that is longer than a pair of hashes. -/
def LongLeaves (P : Primitives) (zs : List Bytes) (hs : List Hash32) : Prop :=
  ∀ h ∈ hs, ∃ s ∈ zs, 64 < s.length ∧ P.blake3 s = h

theorem exists_string_of_mem_levels {zs : List Bytes} {hs : List Hash32}
    (hleaves : LongLeaves P zs hs) {d : ℕ} (hbelow : HashedBelow P zs d hs) {x : Hash32}
    (hx : x ∈ levels P d hs) :
    ∃ s ∈ zs, P.blake3 s = x := by
  cases d with
  | zero =>
    obtain ⟨s, hs, -, hhash⟩ := hleaves x hx
    exact ⟨s, hs, hhash⟩
  | succ d =>
    rw [levels_succ, merkleLevel_eq_map] at hx
    obtain ⟨s, hs, hhash⟩ := List.mem_map.mp hx
    exact ⟨s, hbelow d (Nat.lt_succ_self d) hs, hhash⟩

/-- A leaf and a node above the leaves are hashes of strings of different length. -/
theorem leaf_not_mem_levels {zs : List Bytes} (hz : ¬ Collides P.blake3 zs) {as bs : List Hash32}
    (ha : LongLeaves P zs as) {e : ℕ} (hb : HashedBelow P zs (e + 1) bs) {x : Hash32}
    (hx : x ∈ as) :
    x ∉ levels P (e + 1) bs := by
  intro hnode
  obtain ⟨s, hs, hlong, hhash⟩ := ha x hx
  rw [levels_succ, merkleLevel_eq_map] at hnode
  obtain ⟨t, ht, hhash'⟩ := List.mem_map.mp hnode
  have heq := eq_of_hash_eq hz hs (hb e (Nat.lt_succ_self e) ht) (hhash.trans hhash'.symm)
  obtain ⟨a, -, b, -, hpair⟩ := of_mem_levelStrings ht
  rw [heq, hpair, List.length_append, a.length_eq, b.length_eq] at hlong
  omega

/-- Without collisions a node stands at one distance from the leaves. -/
theorem level_unique {zs : List Bytes} (hz : ¬ Collides P.blake3 zs) {as bs : List Hash32}
    (ha : LongLeaves P zs as) (hb : LongLeaves P zs bs) {d e : ℕ} (hda : HashedBelow P zs d as)
    (heb : HashedBelow P zs e bs) {x : Hash32} (hx : x ∈ levels P d as) (hx' : x ∈ levels P e bs) :
    d = e := by
  induction d generalizing e x with
  | zero =>
    cases e with
    | zero => rfl
    | succ e => exact absurd hx' (leaf_not_mem_levels hz ha heb hx)
  | succ d ih =>
    cases e with
    | zero => exact absurd hx (leaf_not_mem_levels hz hb hda hx')
    | succ e =>
      rw [levels_succ, merkleLevel_eq_map] at hx hx'
      obtain ⟨s, hs, hhash⟩ := List.mem_map.mp hx
      obtain ⟨t, ht, hhash'⟩ := List.mem_map.mp hx'
      have heq := eq_of_hash_eq hz (hda d (Nat.lt_succ_self d) hs) (heb e (Nat.lt_succ_self e) ht)
        (hhash.trans hhash'.symm)
      obtain ⟨a, hamem, b, -, hpair⟩ := of_mem_levelStrings hs
      obtain ⟨a', hamem', b', -, hpair'⟩ := of_mem_levelStrings ht
      have hleft := (append_bytes_inj (hpair.symm.trans (heq.trans hpair'))).1
      rw [ih (fun i hi => hda i (Nat.lt_succ_of_lt hi)) (fun i hi => heb i (Nat.lt_succ_of_lt hi))
        hamem (hleft ▸ hamem')]

theorem Echoes.of_levels {zs : List Bytes} (hz : ¬ Collides P.blake3 zs) {as bs : List Hash32}
    {d : ℕ} (hda : HashedBelow P zs d as) (hdb : HashedBelow P zs d bs)
    (h : Echoes (levels P d as) (levels P d bs)) : Echoes as bs := by
  induction d with
  | zero => exact h
  | succ d ih =>
    rw [levels_succ, levels_succ] at h
    refine ih (fun i hi => hda i (Nat.lt_succ_of_lt hi))
      (fun i hi => hdb i (Nat.lt_succ_of_lt hi)) ?_
    exact h.of_level hz (hda d (Nat.lt_succ_self d)) (hdb d (Nat.lt_succ_self d))

/-- Lists of leaves with one root echo each other. -/
theorem echoes_of_merkleRoot_eq {zs : List Bytes} (hz : ¬ Broken P.blake3 Hash32.zero zs)
    {as bs : List Hash32} (ha : LongLeaves P zs as) (hb : LongLeaves P zs bs)
    (has : merkleStrings P as ⊆ zs) (hbs : merkleStrings P bs ⊆ zs)
    (h : merkleRoot P as = merkleRoot P bs) : Echoes as bs := by
  obtain ⟨hcollides, hhits⟩ := not_or.mp hz
  -- an empty list has the root that no string may hash to
  have hzero {cs : List Hash32} (hc : LongLeaves P zs cs) (hcs : merkleStrings P cs ⊆ zs)
      (hne : cs ≠ []) : merkleRoot P cs ≠ Hash32.zero := by
    intro hroot
    obtain ⟨d, hd, hbelow⟩ := merkleRoot_levels (P := P) hne
    obtain ⟨s, hs, hhash⟩ := exists_string_of_mem_levels hc
      (fun i hi => List.Subset.trans (hbelow i hi) hcs) (x := merkleRoot P cs) (by simp [hd])
    exact hhits ⟨s, hs, hhash.trans hroot⟩
  by_cases hea : as = []
  · by_cases heb : bs = []
    · rw [hea, heb]
      exact ⟨Or.inl List.prefix_rfl, fun _ => Iff.rfl⟩
    · rw [hea] at h
      exact absurd h.symm (hzero hb hbs heb)
  by_cases heb : bs = []
  · rw [heb] at h
    exact absurd h (hzero ha has hea)
  obtain ⟨d, hd, hbelow⟩ := merkleRoot_levels (P := P) hea
  obtain ⟨e, he, hbelow'⟩ := merkleRoot_levels (P := P) heb
  have hda : HashedBelow P zs d as := fun i hi => List.Subset.trans (hbelow i hi) has
  have heb : HashedBelow P zs e bs := fun i hi => List.Subset.trans (hbelow' i hi) hbs
  have hdepth : d = e := level_unique hcollides ha hb hda heb (x := merkleRoot P as) (by simp [hd])
    (by simp [he, h])
  subst e
  refine Echoes.of_levels hcollides hda heb ?_
  rw [hd, he, h]
  exact ⟨Or.inl List.prefix_rfl, fun _ => Iff.rfl⟩

end Hasher

namespace ChainLedger

section Accepted
variable {P : Primitives}

theorem applyTxs_txHashes {executor : TxExecutor} {height : ℕ} {chainId : String} {b b' : Batch}
    {txs : List Transaction} (h : applyTxs P executor height chainId b txs = (b', .ok ())) :
    b'.receipts.map TxReceipt.txHash =
      b.receipts.map TxReceipt.txHash ++ txs.map (Hasher.txHash P) := by
  induction txs generalizing b with
  | nil =>
    cases h
    simp
  | cons tx rest ih =>
    rw [applyTxs] at h
    split at h
    · rename_i s r hexec
      rw [ih h, TxExecutor.executeTransaction_receipt executor hexec]
      simp [Batch.record, Batch.receipts, TxExecutor.receiptOf]
    · cases h

theorem applyTxs_append {executor : TxExecutor} {height : ℕ} {chainId : String} {b b' : Batch}
    {before after : List Transaction}
    (h : applyTxs P executor height chainId b (before ++ after) = (b', .ok ())) :
    ∃ b₁, applyTxs P executor height chainId b before = (b₁, .ok ()) ∧
      applyTxs P executor height chainId b₁ after = (b', .ok ()) := by
  induction before generalizing b with
  | nil => exact ⟨b, rfl, h⟩
  | cons tx rest ih =>
    rw [List.cons_append, applyTxs] at h
    rw [applyTxs]
    split at h
    · exact ih h
    · cases h

/-- An executed transaction is behind the nonce of its sender. -/
theorem nonce_lt_of_applyTxs {executor : TxExecutor} {height : ℕ} {chainId : String} {b b' : Batch}
    {txs : List Transaction} (h : applyTxs P executor height chainId b txs = (b', .ok ()))
    {tx : Transaction} (htx : tx ∈ txs) (hmax : tx.body.nonce < u64Max) :
    tx.body.nonce < nonceOf P b'.store tx.body.sender := by
  induction txs generalizing b with
  | nil => cases htx
  | cons t rest ih =>
    rw [applyTxs] at h
    split at h
    · rename_i s r hexec
      rcases List.mem_cons.mp htx with rfl | htx
      · have hafter := nonceOf_executed hexec hmax
        have hrest := nonceOf_le_applyTxs (P := P) executor height chainId
          (b.record P s tx r height) rest tx.body.sender
        rw [h, nonceOf_record] at hrest
        exact Nat.lt_of_lt_of_le hafter hrest
      · exact ih h htx
    · cases h

/-- No transaction is executed twice in one block. -/
theorem not_mem_of_applyTxs {executor : TxExecutor} {height : ℕ} {chainId : String} {b b' : Batch}
    {before after : List Transaction} {tx : Transaction}
    (h : applyTxs P executor height chainId b (before ++ tx :: after) = (b', .ok ()))
    (hmax : tx.body.nonce < u64Max) : tx ∉ before := by
  intro hmem
  obtain ⟨b₁, hbefore, hrest⟩ := applyTxs_append h
  have hlt := nonce_lt_of_applyTxs hbefore hmem hmax
  rw [applyTxs] at hrest
  split at hrest
  · rename_i s r hexec
    have heq := nonce_of_executed hexec
    omega
  · cases hrest

/-- A list that only repeats what it started with cannot be executed. -/
theorem eq_of_repeats {executor : TxExecutor} {height : ℕ} {chainId : String} {b b' : Batch}
    {txs txs' : List Transaction} (h : applyTxs P executor height chainId b txs' = (b', .ok ()))
    (hextends : txs <+: txs') (hrepeats : ∀ tx ∈ txs', tx ∈ txs)
    (hmax : ∀ tx ∈ txs', tx.body.nonce < u64Max) : txs = txs' := by
  obtain ⟨rest, rfl⟩ := hextends
  cases rest with
  | nil => rw [List.append_nil]
  | cons tx rest =>
    have hmem : tx ∈ txs ++ tx :: rest := by simp
    exact absurd (hrepeats tx hmem) (not_mem_of_applyTxs h (hmax tx hmem))

theorem applyBlock_next_ok {L : ChainLedger} {block : Block}
    (hnext : block.header.height = L.height + 1) (h : (L.applyBlock P block).2.isOk = true) :
    ∃ b, L.applyBody P block = (b, .ok ()) ∧
      Hasher.merkleRoot P (block.body.transactions.map (Hasher.txHash P)) =
        block.header.txsRoot := by
  have houtcome := applyBlock_outcome (P := P) L block
  generalize L.applyBlock P block = result at houtcome h
  cases houtcome with
  | ignored hold => omega
  | refused | failed | mismatched => cases h
  | accepted b hext hbody hroots =>
    refine ⟨b, hbody, ?_⟩
    have hhashes := applyTxs_txHashes hbody
    rw [show L.batch.receipts = [] from rfl, List.map_nil, List.nil_append] at hhashes
    rw [← hhashes]
    exact hroots.txsRoot_eq

/-- The strings that are hashed for the transactions root of a block. -/
def txsStrings (P : Primitives) (block : Block) : List Bytes :=
  block.body.transactions.map P.txJson.toVec ++
    Hasher.merkleStrings P (block.body.transactions.map (Hasher.txHash P))

theorem longLeaves_txHash (hlong : ∀ tx, 64 < (P.txJson.toVec tx).length) {zs : List Bytes}
    {txs : List Transaction} (hzs : txs.map P.txJson.toVec ⊆ zs) :
    Hasher.LongLeaves P zs (txs.map (Hasher.txHash P)) := by
  intro h hh
  obtain ⟨tx, htx, rfl⟩ := List.mem_map.mp hh
  exact ⟨P.txJson.toVec tx, hzs (List.mem_map_of_mem htx), hlong tx, rfl⟩

theorem not_collides_txJson (txs : List Transaction) : ¬ Collides P.txJson.toVec txs := by
  rintro ⟨tx, -, tx', -, hne, heq⟩
  exact hne (P.txJson.toVec_injective heq)

/-- Transactions whose hashes echo are the same as far as both lists go. -/
theorem txs_of_echoes {zs : List Bytes} (hz : ¬ Collides P.blake3 zs) {txs txs' : List Transaction}
    (hzs : txs.map P.txJson.toVec ⊆ zs) (hzs' : txs'.map P.txJson.toVec ⊆ zs)
    (h : Hasher.Echoes (txs.map (Hasher.txHash P)) (txs'.map (Hasher.txHash P))) :
    (txs <+: txs' ∨ txs' <+: txs) ∧ ∀ tx, tx ∈ txs ↔ tx ∈ txs' := by
  have hmap (l : List Transaction) :
      l.map (Hasher.txHash P) = (l.map P.txJson.toVec).map P.blake3 := by simp [Hasher.txHash]
  have hjson := not_collides_txJson (P := P) (txs ++ txs')
  have hmem {l l' : List Transaction} (hl : l.map P.txJson.toVec ⊆ zs)
      (hl' : l'.map P.txJson.toVec ⊆ zs) (hsub : l ++ l' ⊆ txs ++ txs')
      (hhash : ∀ x, x ∈ l.map (Hasher.txHash P) → x ∈ l'.map (Hasher.txHash P)) {tx : Transaction}
      (htx : tx ∈ l) : tx ∈ l' := by
    obtain ⟨tx', htx', heq⟩ := List.mem_map.mp (hhash _ (List.mem_map_of_mem htx))
    have hbytes := eq_of_hash_eq hz (hl' (List.mem_map_of_mem htx'))
      (hl (List.mem_map_of_mem htx)) heq
    have hsame := eq_of_hash_eq hjson (hsub (List.mem_append_right l htx'))
      (hsub (List.mem_append_left l' htx)) hbytes
    exact hsame ▸ htx'
  refine ⟨?_, fun tx => ⟨hmem hzs hzs' (List.Subset.refl _) (fun x => (h.mem_iff x).mp),
    hmem hzs' hzs (by simp) (fun x => (h.mem_iff x).mpr)⟩⟩
  have hextends := h.extends_or
  rw [hmap, hmap] at hextends
  rcases hextends with h | h
  · exact Or.inl (isPrefix_of_map hjson (List.subset_append_left _ _) (List.subset_append_right _ _)
      (isPrefix_of_map hz hzs hzs' h))
  · exact Or.inr (isPrefix_of_map hjson (List.subset_append_right _ _) (List.subset_append_left _ _)
      (isPrefix_of_map hz hzs' hzs h))

/-- Blocks whose transactions have one root have the same transactions as far as both go. -/
theorem txs_of_merkleRoot_eq (hlong : ∀ tx, 64 < (P.txJson.toVec tx).length) {zs : List Bytes}
    (hz : ¬ Broken P.blake3 Hash32.zero zs) {block block' : Block} (hzs : txsStrings P block ⊆ zs)
    (hzs' : txsStrings P block' ⊆ zs)
    (hroot : Hasher.merkleRoot P (block.body.transactions.map (Hasher.txHash P)) =
      Hasher.merkleRoot P (block'.body.transactions.map (Hasher.txHash P))) :
    (block.body.transactions <+: block'.body.transactions ∨
      block'.body.transactions <+: block.body.transactions) ∧
      ∀ tx, tx ∈ block.body.transactions ↔ tx ∈ block'.body.transactions := by
  obtain ⟨hjson, htree⟩ := List.append_subset.mp hzs
  obtain ⟨hjson', htree'⟩ := List.append_subset.mp hzs'
  exact txs_of_echoes (not_or.mp hz).1 hjson hjson' (Hasher.echoes_of_merkleRoot_eq hz
    (longLeaves_txHash hlong hjson) (longLeaves_txHash hlong hjson') htree htree' hroot)

end Accepted

/-- Two blocks with one header that are both accepted in one state have the same
transactions, unless the hash function was broken on the way. Saturated nonces
are left out: a transaction that carries one can be executed again. -/
theorem header_determines_body {P : Primitives} (hlong : ∀ tx, 64 < (P.txJson.toVec tx).length)
    (L : ChainLedger) (block block' : Block) (hheader : block.header = block'.header)
    (hnext : block.header.height = L.height + 1) (hok : (L.applyBlock P block).2.isOk = true)
    (hok' : (L.applyBlock P block').2.isOk = true)
    (hmax : ∀ tx ∈ block.body.transactions ++ block'.body.transactions, tx.body.nonce < u64Max) :
    block.body.transactions = block'.body.transactions ∨
      Broken P.blake3 Hash32.zero (txsStrings P block ++ txsStrings P block') := by
  by_cases hbroken : Broken P.blake3 Hash32.zero (txsStrings P block ++ txsStrings P block')
  · exact Or.inr hbroken
  refine Or.inl ?_
  obtain ⟨b, hbody, hroot⟩ := applyBlock_next_ok hnext hok
  obtain ⟨b', hbody', hroot'⟩ := applyBlock_next_ok (hheader ▸ hnext) hok'
  obtain ⟨hextends, hmem⟩ := txs_of_merkleRoot_eq hlong hbroken (List.subset_append_left _ _)
    (List.subset_append_right _ _)
    (hroot.trans ((congrArg BlockHeader.txsRoot hheader).trans hroot'.symm))
  rcases hextends with h | h
  · exact eq_of_repeats hbody' h (fun tx => (hmem tx).mpr)
      (fun tx htx => hmax tx (List.mem_append_right _ htx))
  · exact (eq_of_repeats hbody h (fun tx => (hmem tx).mp)
      (fun tx htx => hmax tx (List.mem_append_left _ htx))).symm

section Saturated
open Devnet

/-- The development primitives with transactions that are encoded behind 65 zeros. -/
def longPrimitives : Primitives :=
  { primitives with
    txJson :=
      { toVec := fun tx => List.replicate 65 0 ++ txCodec.enc tx
        fromSlice := fun bs => txCodec.decodeAll (bs.drop 65)
        fromSlice_toVec := fun tx => by simp [txCodec.decodeAll_enc] } }

theorem longPrimitives_length (tx : Transaction) :
    64 < (longPrimitives.txJson.toVec tx).length := by
  change 64 < (List.replicate 65 0 ++ txCodec.enc tx).length
  rw [List.length_append, List.length_replicate]
  omega

/-- A transfer of one unit from keypair 1 to itself, without a fee. -/
def selfTransfer (nonce : ℕ) : Transaction :=
  signedTx { (transferTx nonce).body with
    messages := [.transfer (addressOf 1) (units 1)]
    fee := ⟨Amount.zero, 100000, Amount.zero⟩ }

/-- The genesis ledger with keypair 1 two transactions short of the last nonce. -/
def lateLedger : ChainLedger :=
  { initFromGenesis longPrimitives (devGenesis []) with
    store := StateAccessor.setAccount longPrimitives
      (initFromGenesis longPrimitives (devGenesis [])).store (addressOf 1)
      ⟨u64Max - 1, units 100, Hash32.zero, Hash32.zero⟩ }

/-- The last transaction of keypair 1 is put in again and again. -/
def repeatedTxs (times : ℕ) : List Transaction :=
  selfTransfer (u64Max - 1) :: List.replicate times (selfTransfer u64Max)

/-- A block with the given repetitions under the header of the block with two. -/
def repeatedBlock (times : ℕ) : Block :=
  let b := (applyTxs longPrimitives lateLedger.executor 1 "sprax-devnet-1" lateLedger.batch
    (repeatedTxs 2)).1
  { lateLedger.minedBlock longPrimitives b (addressOf 9) with body := ⟨repeatedTxs times⟩ }

theorem lateLedger_nonces (a : Address) : nonceOf longPrimitives lateLedger.store a ≠ u64Max := by
  have hgenesis : nonceOf longPrimitives
      (initFromGenesis longPrimitives (devGenesis [])).store a = 0 :=
    initFromGenesis_nonceOf (devGenesis []) a
  rw [lateLedger, nonceOf_setAccount]
  split
  · decide
  · rw [hgenesis]
    decide

/-- Two and three repetitions are both accepted under one header. -/
theorem repeated_bodies_accepted :
    (∀ tx, 64 < (longPrimitives.txJson.toVec tx).length) ∧
    (∀ a, nonceOf longPrimitives lateLedger.store a ≠ u64Max) ∧
    (repeatedBlock 2).header = (repeatedBlock 3).header ∧
    (repeatedBlock 2).header.height = lateLedger.height + 1 ∧
    (lateLedger.applyBlock longPrimitives (repeatedBlock 2)).2.isOk = true ∧
    (lateLedger.applyBlock longPrimitives (repeatedBlock 3)).2.isOk = true ∧
    (repeatedBlock 2).body.transactions ≠ (repeatedBlock 3).body.transactions ∧
    ¬ Broken longPrimitives.blake3 Hash32.zero
      (txsStrings longPrimitives (repeatedBlock 2) ++ txsStrings longPrimitives
        (repeatedBlock 3)) := by
  refine ⟨longPrimitives_length, lateLedger_nonces, rfl, rfl, ?_⟩
  simp only [Broken, Collides, Hits]
  decide +kernel

/-- A block with three transactions, and the same block with a commit signature. -/
theorem header_determines_body_devnet :
    let L := initFromGenesis longPrimitives (devGenesis [])
    let b := (applyTxs longPrimitives L.executor 1 "sprax-devnet-1" L.batch
      ([0, 1, 2].map transferTx)).1
    let block := L.minedBlock longPrimitives b (addressOf 9)
    let signed := { block with lastCommit := [⟨addressOf 9, [1], 1700000000⟩] }
    block.body.transactions = [0, 1, 2].map transferTx ∧
      (block.body.transactions = signed.body.transactions ∨
        Broken longPrimitives.blake3 Hash32.zero
          (txsStrings longPrimitives block ++ txsStrings longPrimitives signed)) := by
  intro L b block signed
  exact ⟨by decide +kernel, header_determines_body longPrimitives_length L block signed rfl
    (by decide +kernel) (by decide +kernel) (by decide +kernel) (by decide +kernel)⟩

end Saturated

end ChainLedger

end Sprax
