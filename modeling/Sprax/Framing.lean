import Mathlib.Data.List.Basic

/-!
# Length-prefixed frames on a stream

A frame is a header of fixed size, which gives the size of the payload, and the payload.
A reader alternates between two reads that complete as soon as enough bytes have come,
closes when a header announces more than it takes, and skips payloads it cannot decode.
What it does with a stream does not depend on how the stream is cut into chunks.
-/
namespace Sprax.Framing

variable {β M : Type*}

structure Format (β M : Type*) where
  headerSize : ℕ
  headerSize_pos : 0 < headerSize
  payloadSize : List β → ℕ
  limit : ℕ
  decode : List β → Option M

/-- The read that a reader waits in. -/
inductive Awaiting
  | header
  | payload (size : ℕ)
  | closed
  deriving DecidableEq

/-- A reader with the bytes that have come and are not read yet, and the messages
delivered so far. -/
structure Reader (β M : Type*) where
  awaiting : Awaiting
  unread : List β
  delivered : List M

namespace Reader

/-- A new connection. -/
def start : Reader β M := ⟨.header, [], []⟩

/-- More bytes come. -/
def more (r : Reader β M) (bytes : List β) : Reader β M := { r with unread := r.unread ++ bytes }

@[simp] theorem more_nil (r : Reader β M) : r.more [] = r := by simp [more]

@[simp] theorem more_more (r : Reader β M) (a b : List β) :
    (r.more a).more b = r.more (a ++ b) := by
  simp [more]

/-- Decreases with every completed read, an empty payload included. -/
def pending (r : Reader β M) : ℕ :=
  2 * r.unread.length + match r.awaiting with
    | .payload _ => 1
    | .header | .closed => 0

variable (F : Format β M)

/-- The next read, if it can complete. -/
def step (r : Reader β M) : Option (Reader β M) :=
  match r.awaiting with
  | .header =>
    if r.unread.length < F.headerSize then none
    else
      let size := F.payloadSize (r.unread.take F.headerSize)
      let rest := r.unread.drop F.headerSize
      if F.limit < size then some { r with awaiting := .closed, unread := rest }
      else some { r with awaiting := .payload size, unread := rest }
  | .payload size =>
    if r.unread.length < size then none
    else some
      { awaiting := .header
        unread := r.unread.drop size
        delivered := r.delivered ++ (F.decode (r.unread.take size)).toList }
  | .closed => none

variable {F}

theorem pending_lt {r r' : Reader β M} (h : r.step F = some r') : r'.pending < r.pending := by
  have hpos := F.headerSize_pos
  unfold step at h
  split at h
  · rename_i hheader
    split at h
    · cases h
    · dsimp only at h
      split at h <;>
      · cases h
        simp only [pending, hheader, List.length_drop]
        omega
  · rename_i hpayload
    split at h
    · cases h
    · cases h
      simp only [pending, hpayload, List.length_drop]
      omega
  · cases h

variable (F)

/-- All reads that can complete. -/
def drain (r : Reader β M) : Reader β M :=
  match _h : r.step F with
  | none => r
  | some r' => drain r'
termination_by r.pending
decreasing_by exact pending_lt _h

/-- A chunk arrives. -/
def receive (r : Reader β M) (chunk : List β) : Reader β M := (r.more chunk).drain F

variable {F}

theorem drain_of_none {r : Reader β M} (h : r.step F = none) : r.drain F = r := by
  rw [drain]
  split
  · rfl
  · rename_i hsome
    rw [h] at hsome
    cases hsome

theorem drain_of_some {r r' : Reader β M} (h : r.step F = some r') : r.drain F = r'.drain F := by
  rw [drain]
  split
  · rename_i hnone
    rw [h] at hnone
    cases hnone
  · rename_i hsome
    rw [h] at hsome
    cases hsome
    rfl

/-- A read that can complete does so in the same way when more bytes are behind it. -/
theorem step_more {r r' : Reader β M} (h : r.step F = some r') (bytes : List β) :
    (r.more bytes).step F = some (r'.more bytes) := by
  unfold step at h ⊢
  cases hawait : r.awaiting with
  | header =>
    simp only [hawait, more] at h ⊢
    by_cases hlen : r.unread.length < F.headerSize
    · rw [if_pos hlen] at h
      cases h
    · have hlen' : ¬ (r.unread ++ bytes).length < F.headerSize := by
        rw [List.length_append]
        omega
      rw [if_neg hlen] at h
      rw [if_neg hlen', List.take_append_of_le_length (by omega),
        List.drop_append_of_le_length (by omega)]
      by_cases hlimit : F.limit < F.payloadSize (r.unread.take F.headerSize)
      · rw [if_pos hlimit] at h ⊢
        cases h
        rfl
      · rw [if_neg hlimit] at h ⊢
        cases h
        rfl
  | payload size =>
    simp only [hawait, more] at h ⊢
    by_cases hlen : r.unread.length < size
    · rw [if_pos hlen] at h
      cases h
    · have hlen' : ¬ (r.unread ++ bytes).length < size := by
        rw [List.length_append]
        omega
      rw [if_neg hlen] at h
      rw [if_neg hlen', List.take_append_of_le_length (by omega),
        List.drop_append_of_le_length (by omega)]
      cases h
      rfl
  | closed =>
    simp only [hawait] at h
    cases h

/-- Reading in between changes nothing. -/
theorem drain_more (r : Reader β M) (bytes : List β) :
    ((r.drain F).more bytes).drain F = (r.more bytes).drain F := by
  induction r using drain.induct (F := F) with
  | case1 r hnone => rw [drain_of_none hnone]
  | case2 r r' hsome ih => rw [drain_of_some hsome, ih, drain_of_some (step_more hsome bytes)]

@[simp] theorem drain_drain (r : Reader β M) : (r.drain F).drain F = r.drain F := by
  simpa using drain_more r []

/-- Chunks are read as the stream that they are cut from. -/
theorem receive_chunks {r : Reader β M} (hr : r.drain F = r) (chunks : List (List β)) :
    chunks.foldl (receive F) r = (r.more chunks.flatten).drain F := by
  induction chunks generalizing r with
  | nil => simp [hr]
  | cons chunk rest ih =>
    rw [List.foldl_cons, receive, ih (drain_drain _), drain_more, more_more, List.flatten_cons]

/-- A frame within the limit is delivered and the reader is back at a header. -/
theorem drain_frame {header payload rest : List β} {delivered : List M} {m : M}
    (hheader : header.length = F.headerSize) (hsize : F.payloadSize header = payload.length)
    (hlimit : payload.length ≤ F.limit) (hdecode : F.decode payload = some m) :
    drain F ⟨.header, header ++ (payload ++ rest), delivered⟩ =
      drain F ⟨.header, rest, delivered ++ [m]⟩ := by
  have hfirst : step F ⟨.header, header ++ (payload ++ rest), delivered⟩ =
      some ⟨.payload payload.length, payload ++ rest, delivered⟩ := by
    simp only [step, List.length_append, ← hheader, List.take_left, List.drop_left, hsize]
    rw [if_neg (by omega), if_neg (by omega)]
  have hsecond : step F ⟨.payload payload.length, payload ++ rest, delivered⟩ =
      some ⟨.header, rest, delivered ++ [m]⟩ := by
    simp only [step, List.length_append, List.take_left, List.drop_left, hdecode,
      Option.toList_some]
    rw [if_neg (by omega)]
  rw [drain_of_some hfirst, drain_of_some hsecond]

/-- A header that announces too much closes the reader. -/
theorem drain_too_large {header rest : List β} {delivered : List M}
    (hheader : header.length = F.headerSize) (hsize : F.limit < F.payloadSize header) :
    drain F ⟨.header, header ++ rest, delivered⟩ = ⟨.closed, rest, delivered⟩ := by
  have hstep : step F ⟨.header, header ++ rest, delivered⟩ = some ⟨.closed, rest, delivered⟩ := by
    simp only [step, List.length_append, ← hheader, List.take_left, List.drop_left]
    rw [if_neg (by omega), if_pos hsize]
  rw [drain_of_some hstep]
  exact drain_of_none rfl

/-- A header may announce less than was written: the reader then takes the rest of the
payload for the next header. -/
theorem drain_short {header payload : List β} {delivered : List M}
    (hheader : header.length = F.headerSize) (hlimit : F.payloadSize header ≤ F.limit)
    (hsize : F.payloadSize header ≤ payload.length) :
    ∃ more, drain F ⟨.header, header ++ payload, delivered⟩ =
      drain F ⟨.header, payload.drop (F.payloadSize header), more⟩ := by
  have hfirst : step F ⟨.header, header ++ payload, delivered⟩ =
      some ⟨.payload (F.payloadSize header), payload, delivered⟩ := by
    simp only [step, List.length_append, ← hheader, List.take_left, List.drop_left]
    rw [if_neg (by omega), if_neg (by omega)]
  have hsecond : step F ⟨.payload (F.payloadSize header), payload, delivered⟩ =
      some ⟨.header, payload.drop (F.payloadSize header),
        delivered ++ (F.decode (payload.take (F.payloadSize header))).toList⟩ := by
    simp only [step]
    rw [if_neg (by omega)]
  exact ⟨_, by rw [drain_of_some hfirst, drain_of_some hsecond]⟩

end Reader

end Sprax.Framing
