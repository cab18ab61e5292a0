import Sprax.Indexer
import Sprax.Runs

/-!
# Gaps in the index

The cursor of the indexer moves with the loop over a batch, whether or not a
block was answered. So the index is complete up to the cursor exactly as long as
every height of a committed cycle is answered with its block: a height that was
skipped lies below the cursor from then on and is not asked for again.
-/
namespace Sprax.Indexer

variable {py : Python} (P : Primitives) (chain : ℕ → Block) (batchSize : ℕ)

/-- The heights a cycle goes through. -/
def heights (db : Database py) (c : Cycle py) : List ℕ :=
  match c.chainHeight with
  | none => []
  | some chainHeight =>
    if db.latestIndexedHeight < chainHeight then batch batchSize db.latestIndexedHeight chainHeight
    else []

/-- The rows a cycle adds for the heights: one for each answer with a block. -/
def servedRows (c : Cycle py) (hs : List ℕ) : List (BlockRow py) :=
  (hs.filter (fun h => c.response h = .served)).map (fun h => servedRow P (chain h) h (c.now h))

/-- The answers of a node that holds the chain. -/
def answers (height : ℕ) : Value := Rpc.blockValue P (chain height)

theorem indexHeight_run (c : Cycle py) (chainHeight height : ℕ) (s : Session py) :
    ∃ t, indexHeight py (answers P chain) c chainHeight height s = .ok () t ∧
      t.loaded = s.loaded ∧ t.blocks = s.blocks ++ servedRows P chain c [height] ∧
      t.state.latestIndexedHeight = height := by
  unfold indexHeight
  cases hr : c.response height with
  | failed =>
    exact ⟨_, Effects.bind_of_ok (indexBlock_failed _ _ _ s) _, rfl, by simp [servedRows, hr], rfl⟩
  | empty =>
    exact ⟨_, Effects.bind_of_ok (indexBlock_empty _ _ s) _, rfl, by simp [servedRows, hr], rfl⟩
  | served =>
    exact ⟨_, Effects.bind_of_ok (indexBlock_served P (chain height) _ _ s) _, rfl,
      by simp [servedRows, hr], rfl⟩

theorem forM_indexHeight_run (c : Cycle py) (chainHeight : ℕ) (hs : List ℕ) (s : Session py) :
    ∃ t, hs.forM (indexHeight py (answers P chain) c chainHeight) s = .ok () t ∧
      t.loaded = s.loaded ∧ t.blocks = s.blocks ++ servedRows P chain c hs ∧
      t.state.latestIndexedHeight = hs.getLastD s.state.latestIndexedHeight := by
  induction hs generalizing s with
  | nil => exact ⟨s, rfl, rfl, by simp [servedRows], rfl⟩
  | cons h hs ih =>
    obtain ⟨t, hrun, hloaded, hblocks, hstate⟩ := indexHeight_run P chain c chainHeight h s
    obtain ⟨u, hrun', hloaded', hblocks', hstate'⟩ := ih t
    refine ⟨u, (Effects.bind_of_ok hrun _).trans hrun', hloaded'.trans hloaded, ?_, ?_⟩
    · rw [hblocks', hblocks, List.append_assoc, servedRows, servedRows, servedRows,
        ← List.map_append, ← List.filter_append, List.singleton_append]
    · rw [hstate', hstate, List.getLastD_cons]

theorem cycleBody_failed {c : Cycle py} (hheight : c.chainHeight = none) (s : Session py) :
    cycleBody py batchSize (answers P chain) c s = .error .spraxError s := by
  unfold cycleBody
  rw [hheight]
  rfl

theorem cycleBody_run {c : Cycle py} {chainHeight : ℕ} (hheight : c.chainHeight = some chainHeight)
    (s : Session py) :
    let hs := if s.state.latestIndexedHeight < chainHeight then
      batch batchSize s.state.latestIndexedHeight chainHeight else []
    ∃ t, cycleBody py batchSize (answers P chain) c s = .ok () t ∧ t.loaded = s.loaded ∧
      t.blocks = s.blocks ++ servedRows P chain c hs ∧
      t.state.latestIndexedHeight = hs.getLastD s.state.latestIndexedHeight := by
  have hrun : cycleBody py batchSize (answers P chain) c s =
      (if s.state.latestIndexedHeight < chainHeight then
        (batch batchSize s.state.latestIndexedHeight chainHeight).forM
          (indexHeight py (answers P chain) c chainHeight)
      else pure ()) { s with state := { s.state with
        latestChainHeight := chainHeight,
        lagBlocks := chainHeight - s.state.latestIndexedHeight } } := by
    unfold cycleBody
    rw [hheight]
    rfl
  rw [hrun]
  dsimp only
  split
  · exact forM_indexHeight_run P chain c chainHeight _ _
  · exact ⟨_, rfl, rfl, by simp [servedRows], rfl⟩

/-- A cycle that is committed adds its rows and moves the cursor to the last
height it went through, answered or not. -/
theorem indexCycle_run (db : Database py) (c : Cycle py) :
    let db' := indexCycle py batchSize (answers P chain) db c
    let hs := if c.commits then heights batchSize db c else []
    db'.blocks = db.blocks ++ servedRows P chain c hs ∧
      db'.latestIndexedHeight = hs.getLastD db.latestIndexedHeight := by
  have hbegin : (Session.begin py db).state.latestIndexedHeight = db.latestIndexedHeight := by
    unfold Session.begin Database.latestIndexedHeight
    cases db.state <;> rfl
  have hnothing : db.blocks = db.blocks ++ servedRows P chain c [] := by simp [servedRows]
  unfold indexCycle heights
  cases hheight : c.chainHeight with
  | none =>
    rw [cycleBody_failed P chain batchSize hheight, ite_self]
    exact ⟨hnothing, rfl⟩
  | some chainHeight =>
    obtain ⟨t, hrun, hloaded, hblocks, hstate⟩ :=
      cycleBody_run P chain batchSize hheight (Session.begin py db)
    rw [hrun]
    cases c.commits with
    | false => exact ⟨hnothing, rfl⟩
    | true =>
      rw [hbegin] at hblocks hstate
      refine ⟨?_, hstate⟩
      have hsaved : (t.saved py).blocks = t.loaded.blocks ++ t.blocks := rfl
      dsimp only
      rw [if_pos rfl, if_pos rfl, hsaved, hloaded, hblocks]
      rfl

theorem getLastD_range' (k n : ℕ) : (List.range' (k + 1) n).getLastD k = k + n := by
  cases n with
  | zero => rfl
  | succ n => simp [List.range'_concat]; omega

theorem heights_eq_range' (db : Database py) (c : Cycle py) :
    ∃ n, heights batchSize db c = List.range' (db.latestIndexedHeight + 1) n := by
  unfold heights
  split
  · exact ⟨0, rfl⟩
  · split
    · exact ⟨_, rfl⟩
    · exact ⟨0, rfl⟩

/-- A cycle goes through exactly the heights its cursor passes. -/
theorem mem_heights {db : Database py} {c : Cycle py} {h : ℕ} :
    h ∈ heights batchSize db c ↔ db.latestIndexedHeight < h ∧
      h ≤ (heights batchSize db c).getLastD db.latestIndexedHeight := by
  obtain ⟨n, hrange⟩ := heights_eq_range' batchSize db c
  rw [hrange, getLastD_range', List.mem_range'_1]
  omega

theorem latest_le_getLastD_heights (db : Database py) (c : Cycle py) :
    db.latestIndexedHeight ≤ (heights batchSize db c).getLastD db.latestIndexedHeight := by
  obtain ⟨n, hrange⟩ := heights_eq_range' batchSize db c
  rw [hrange, getLastD_range']
  omega

/-- Every height up to the cursor has a row with its hash on the chain. -/
def NoGaps (db : Database py) : Prop :=
  ∀ h, 1 ≤ h → h ≤ db.latestIndexedHeight →
    ∃ row ∈ db.blocks, row.height = h ∧
      row.hash = .string (Hasher.blockHash P (chain h).header).toHex

/-- No row is above the cursor. -/
def Bounded (db : Database py) : Prop := ∀ row ∈ db.blocks, row.height ≤ db.latestIndexedHeight

/-- If the cycle is committed, every height it goes through is answered with its block. -/
def Complete (db : Database py) (c : Cycle py) : Prop :=
  c.commits = true → ∀ h ∈ heights batchSize db c, c.response h = .served

theorem mem_servedRows {c : Cycle py} {hs : List ℕ} {row : BlockRow py} :
    row ∈ servedRows P chain c hs ↔
      ∃ h ∈ hs, c.response h = .served ∧ servedRow P (chain h) h (c.now h) = row := by
  simp [servedRows, and_assoc]

theorem noGaps_cycle_iff {db : Database py} (hbounded : Bounded db) (hdb : NoGaps P chain db)
    (c : Cycle py) : NoGaps P chain (indexCycle py batchSize (answers P chain) db c) ↔
      Complete batchSize db c := by
  obtain ⟨hblocks, hlatest⟩ := indexCycle_run P chain batchSize db c
  unfold NoGaps Complete
  rw [hblocks, hlatest]
  constructor
  · intro hrows hcommits h hh
    rw [hcommits, if_pos rfl] at hrows
    obtain ⟨habove, hbelow⟩ := (mem_heights batchSize).mp hh
    obtain ⟨row, hrow, hheight, -⟩ := hrows h (by omega) hbelow
    rcases List.mem_append.mp hrow with hold | hnew
    · -- the rows there were are all below the height
      have := hbounded row hold
      omega
    · obtain ⟨h', -, hserved, rfl⟩ := (mem_servedRows P chain).mp hnew
      cases hheight
      exact hserved
  · intro hserved h hpos hle
    by_cases hold : h ≤ db.latestIndexedHeight
    · obtain ⟨row, hrow, hrest⟩ := hdb h hpos hold
      exact ⟨row, List.mem_append_left _ hrow, hrest⟩
    · by_cases hcommits : c.commits = true
      · rw [if_pos hcommits] at hle ⊢
        have hh := (mem_heights batchSize).mpr ⟨by omega, hle⟩
        refine ⟨servedRow P (chain h) h (c.now h), List.mem_append_right _ ?_, rfl, rfl⟩
        exact (mem_servedRows P chain).mpr ⟨h, hh, hserved hcommits h hh, rfl⟩
      · rw [if_neg hcommits] at hle
        exact absurd hle hold

theorem bounded_cycle {db : Database py} (hbounded : Bounded db) (c : Cycle py) :
    Bounded (indexCycle py batchSize (answers P chain) db c) := by
  obtain ⟨hblocks, hlatest⟩ := indexCycle_run P chain batchSize db c
  unfold Bounded
  rw [hblocks, hlatest]
  cases c.commits with
  | false =>
    intro row hrow
    exact hbounded row (by simpa [servedRows] using hrow)
  | true =>
    intro row hrow
    rcases List.mem_append.mp hrow with hold | hnew
    · exact Nat.le_trans (hbounded row hold) (latest_le_getLastD_heights batchSize db c)
    · obtain ⟨h, hh, -, rfl⟩ := (mem_servedRows P chain).mp hnew
      exact ((mem_heights batchSize).mp hh).2

/-- A database before the first cycle. -/
def Database.empty : Database py := ⟨[], [], [], [], none⟩

/-- In every state reached, the index is complete up to the cursor, exactly if
every height of every committed cycle is answered with its block. -/
theorem no_gaps_iff (cycles : List (Cycle py)) :
    Runs.Throughout (NoGaps P chain) (indexCycle py batchSize (answers P chain))
      Database.empty cycles ↔
      Runs.Along (Complete batchSize) (indexCycle py batchSize (answers P chain)) Database.empty
        cycles := by
  refine Runs.throughout_iff_along (I := Bounded) (Q := fun _ => True) ?_ ?_
    (fun _ _ => trivial) ?_ ?_
  · exact fun db c _ hbounded hdb => noGaps_cycle_iff P chain batchSize hbounded hdb c
  · exact fun db c _ hbounded _ _ => bounded_cycle P chain batchSize hbounded c
  · intro row hrow
    cases hrow
  · intro h hpos hle
    exact absurd (Nat.lt_of_lt_of_le hpos hle) (Nat.lt_irrefl 0)

section Scenario
open Devnet

/-- A cycle at chain height 2 whose call for height 1 may fail. -/
def devCycle (first : Response) : Cycle devPython where
  chainHeight := some 2
  response := fun h => if h = 1 then first else .served
  now := fun _ => (0 : ℤ)
  commits := true

/-- One failed call leaves height 1 without a row, and a later cycle in which all
calls succeed does not fill the gap. -/
theorem failed_call_leaves_gap :
    let step := indexCycle devPython 10 (answers primitives (fun _ => transferBlock))
    let db := Runs.run step Database.empty [devCycle .failed, devCycle .served]
    db.latestIndexedHeight = 2 ∧ db.blocks.map BlockRow.height = [2] ∧
      ¬ NoGaps primitives (fun _ => transferBlock) db := by
  have hrows : (Runs.run (indexCycle devPython 10 (answers primitives (fun _ => transferBlock)))
      Database.empty [devCycle .failed, devCycle .served]).blocks.map BlockRow.height = [2] := rfl
  refine ⟨rfl, hrows, ?_⟩
  intro hgaps
  obtain ⟨row, hrow, hheight, -⟩ := hgaps 1 (by decide) (by decide)
  have hmem := List.mem_map_of_mem (f := BlockRow.height) hrow
  rw [hrows, hheight] at hmem
  exact absurd hmem (by decide)

end Scenario

end Sprax.Indexer
