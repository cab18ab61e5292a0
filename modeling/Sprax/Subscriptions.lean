import Sprax.Registry
import Sprax.Sockets

/-!
# Subscriptions of the WebSocket connections

A subscription is kept in the connection and in the set of the channel. `disconnect` looks the
subscriptions up through `_connections`; a handler whose connection was pruned is no longer there,
and its next `subscribe` enters the id in a channel again. The tables are registrations on both
sides, and each turn makes one change to them at most.
-/
namespace Sprax.WebSocket
open Std FiniteMap Runs

section Steps
variable (rt : Runtime)

/-- The change a turn makes to the tables. -/
def changeOf (s : State) : Event → Option (Registry.Change ConnId Channel)
  | .receive id raw =>
    match s.sessions[id]? with
    | some x => match x.point, receive rt x.channel raw with
      | .receiving, .unsubscribe (some ch) => some (.drop id ch)
      | _, _ => none
    | none => none
  | .resume id _ =>
    match s.sessions[id]? with
    | some x => match x.point with
      | .joining => some (.join id)
      | .entering ch => some (.enter id ch)
      | .leaving => some (.leave id)
      | .sending _ | .receiving | .returned => none
    | none => none
  | .proceed place _ =>
    match s.sweeps[place]? with
    | some x => match x.await with
      | .lock id _ => some (.leave id)
      | .send _ _ _ => none
    | none => none
  | .accept _ _ _ | .broadcast _ _ _ _ | .sendToUser _ _ _ _ | .heartbeat _ => none

end Steps

/-- The tables as registrations of connections for channels. -/
def State.registry (s : State) : Registry ConnId Channel where
  members := { id | id ∈ s.connections }
  recorded := { p | p.2 ∈ s.subscriptions p.1 }
  listed := { p | p.1 ∈ s.channelConnections p.2 }

section Refinement
variable {s : State} {id : ConnId}

theorem subscriptions_modify (s : State) (id : ConnId) (f : Session → Session) (j : ConnId) :
    (s.modify id f).subscriptions j =
      if id = j then (s.sessions[id]?.map (fun x => (f x).conn.subscriptions)).getD []
      else s.subscriptions j := by
  simp only [State.subscriptions, State.modify, ExtTreeMap.getElem?_modify]
  split <;> simp_all [Function.comp_def]

/-- A turn that leaves the subscriptions of the connection alone leaves the tables alone. -/
theorem registry_modify (s : State) (id : ConnId) {f : Session → Session}
    (hf : ∀ x, (f x).conn.subscriptions = x.conn.subscriptions) :
    (s.modify id f).registry = s.registry := by
  have hsame : (s.modify id f).subscriptions = s.subscriptions := by
    funext j
    rw [subscriptions_modify]
    split
    · subst j
      simp [State.subscriptions, hf]
    · rfl
  unfold State.registry
  rw [hsame]
  rfl

@[simp] theorem registry_wait (s : State) (id : ConnId) (p : Point) :
    (s.wait id p).registry = s.registry := registry_modify s id (fun _ => rfl)

@[simp] theorem registry_send (s : State) (id : ConnId) (sent : Bool) :
    (s.send id sent).registry = s.registry := registry_modify s id (fun _ => rfl)

@[simp] theorem registry_start (s : State) (sweep : Option Sweep) :
    (s.start sweep).registry = s.registry := rfl

@[simp] theorem registry_goOn (s : State) (place : ℕ) (sweep : Option Sweep) :
    (s.goOn place sweep).registry = s.registry := rfl

theorem registry_accept (hid : id ∉ s.sessions) (rt : Runtime) (channel : Channel)
    (token : Option String) :
    { s with sessions := s.sessions.insert id (newSession rt channel token) : State }.registry =
      s.registry := by
  have hnone : s.sessions[id]? = none := by simpa using hid
  ext p
  · rfl
  · by_cases hp : id = p.1
    · simp [State.registry, State.subscriptions, newSession, ← hp, hnone]
    · simp [State.registry, State.subscriptions, getElem?_insert_ne _ _ hp]
  · rfl

theorem registry_connect (s : State) (id : ConnId) :
    (s.connect id).registry = s.registry.change (.join id) := by
  ext p
  · simp [State.registry, State.connect, Registry.change, or_comm]
  · rfl
  · rfl

theorem registry_disconnect (s : State) (id : ConnId) :
    (s.disconnect id).registry = s.registry.change (.leave id) := by
  by_cases hid : id ∈ s.connections
  · ext p
    · simp [State.registry, State.disconnect, Registry.change, hid]
    · simp [State.registry, State.disconnect, Registry.change, hid, State.subscriptions]
    · simp only [State.registry, State.disconnect, Registry.change, hid]
      grind
  · ext p
    · simp [State.registry, State.disconnect, Registry.change, hid]
    · simp [State.registry, State.disconnect, Registry.change, hid]
    · simp [State.registry, State.disconnect, Registry.change, hid]

theorem subscriptions_tables {x : Session} (hx : s.sessions[id]? = some x)
    (topics : List Channel → List Channel) (ch : Channel) (ids : List ConnId → List ConnId)
    (j : ConnId) :
    (s.tables id topics ch ids).subscriptions j =
      if id = j then topics (s.subscriptions j) else s.subscriptions j := by
  have hmodify := subscriptions_modify s id
    (fun x => { x with conn := { x.conn with subscriptions := topics x.conn.subscriptions } }) j
  refine hmodify.trans ?_
  split
  · subst j
    simp [State.subscriptions, hx]
  · rfl

theorem channelConnections_tables (s : State) (id : ConnId) (topics : List Channel → List Channel)
    (ch : Channel) (ids : List ConnId → List ConnId) (c : Channel) :
    (s.tables id topics ch ids).channelConnections c =
      if c = ch then ids (s.channelConnections c) else s.channelConnections c := by
  by_cases hc : c = ch
  · subst c
    simp [State.tables]
  · simp [State.tables, hc]

theorem registry_enter {x : Session} (hx : s.sessions[id]? = some x) (ch : Channel) :
    (s.enter id ch).registry = s.registry.change (.enter id ch) := by
  ext ⟨j, c⟩
  · rfl
  · simp only [State.registry, State.enter, Registry.change, subscriptions_tables hx]
    grind
  · simp only [State.registry, State.enter, Registry.change, channelConnections_tables]
    grind

theorem registry_unsubscribe {x : Session} (hx : s.sessions[id]? = some x) (ch : Channel) :
    (s.unsubscribe id ch).registry = s.registry.change (.drop id ch) := by
  ext ⟨j, c⟩
  · rfl
  · simp only [State.registry, State.unsubscribe, Registry.change, subscriptions_tables hx]
    grind
  · simp only [State.registry, State.unsubscribe, Registry.change, channelConnections_tables]
    grind

theorem registry_receive (rt : Runtime) (s : State) (id : ConnId) (raw : Option String) :
    (step rt s (.receive id raw)).registry =
      s.registry.changes (changeOf rt s (.receive id raw)) := by
  simp only [step, changeOf, Registry.changes]
  cases hx : s.sessions[id]? with
  | none => rfl
  | some x =>
    cases hp : x.point with
    | receiving =>
      cases hr : receive rt x.channel raw with
      | unsubscribe ch => cases ch with
        | none => simp [State.serve, hp, hr]
        | some ch => simp [State.serve, hp, hr, registry_unsubscribe hx]
      | _ => simp [State.serve, hp, hr]
    | _ => simp [hp]

theorem registry_resume (rt : Runtime) (s : State) (id : ConnId) (sent : Bool) :
    (step rt s (.resume id sent)).registry =
      s.registry.changes (changeOf rt s (.resume id sent)) := by
  simp only [step, changeOf, Registry.changes]
  cases hx : s.sessions[id]? with
  | none => rfl
  | some x =>
    cases hp : x.point with
    | joining => simp [State.resume, hp, registry_connect]
    | entering ch => simp [State.resume, hp, registry_enter hx]
    | leaving => simp [State.resume, hp, registry_disconnect]
    | _ => simp [State.resume, hp]

theorem registry_proceed (rt : Runtime) (s : State) (place : ℕ) (sent : Bool) :
    (step rt s (.proceed place sent)).registry =
      s.registry.changes (changeOf rt s (.proceed place sent)) := by
  simp only [step, changeOf, Registry.changes]
  cases hx : s.sweeps[place]? with
  | none => rfl
  | some x =>
    cases ha : x.await with
    | send id todo dead => simp [State.proceed, ha]
    | lock id dead => simp [State.proceed, ha, registry_disconnect]

/-- Each turn makes one change to the tables, or none. -/
theorem registry_step (rt : Runtime) (s : State) (e : Event) :
    (step rt s e).registry = s.registry.changes (changeOf rt s e) := by
  cases e with
  | accept id channel token =>
    simp only [step, changeOf, Registry.changes, Option.elim_none]
    split
    · rfl
    · exact registry_accept ‹_› rt channel token
  | receive id raw => exact registry_receive rt s id raw
  | resume id sent => exact registry_resume rt s id sent
  | proceed place sent => exact registry_proceed rt s place sent
  -- a loop that starts has not sent anything yet
  | broadcast channel eventType data order =>
    simp only [step, changeOf, Registry.changes]
    split <;> simp
  | sendToUser userId channel eventType data => simp [step, changeOf, Registry.changes]
  | heartbeat ts =>
    simp only [step, changeOf, Registry.changes]
    split <;> simp

end Refinement

/-- Private channels are for authenticated connections. -/
def Connection.Permitted (conn : Connection) (ch : Channel) : Prop :=
  ch.isPrivate = true → conn.userId ≠ none

/-- A connection that is not yet registered has no subscriptions, and what it subscribes to is
permitted before the lock is taken. -/
structure Session.Ok (x : Session) : Prop where
  fresh : x.point = .joining → x.conn.subscriptions = []
  entering : ∀ ch, x.point = .entering ch → x.conn.Permitted ch
  subscribed : ∀ ch ∈ x.conn.subscriptions, x.conn.Permitted ch

def State.Ok (s : State) : Prop :=
  ∀ (id : ConnId) (x : Session), s.sessions[id]? = some x → x.Ok

theorem subscribe_entering {conn : Connection} {c : Option Channel} {ch : Channel}
    (h : subscribe conn c = .entering ch) : conn.Permitted ch := by
  unfold subscribe at h
  unfold Connection.Permitted
  grind

theorem subscribe_ne_joining (conn : Connection) (c : Option Channel) :
    subscribe conn c ≠ .joining := by
  unfold subscribe
  grind

section Sessions
variable {s : State} {id : ConnId}

@[simp] theorem sessions_disconnect (s : State) (id : ConnId) :
    (s.disconnect id).sessions = s.sessions := by
  unfold State.disconnect
  split <;> rfl

theorem State.Ok.modify (h : s.Ok) {f : Session → Session}
    (hf : ∀ x, s.sessions[id]? = some x → x.Ok → (f x).Ok) : (s.modify id f).Ok := by
  intro j y hy
  simp only [State.modify, ExtTreeMap.getElem?_modify] at hy
  split at hy
  · obtain ⟨x, hx, rfl⟩ := Option.map_eq_some_iff.mp hy
    exact hf x hx (h id x hx)
  · exact h j y hy

theorem State.Ok.wait (h : s.Ok) {p : Point} (hp : p ≠ .joining)
    (hentering : ∀ x ch, s.sessions[id]? = some x → p = .entering ch → x.conn.Permitted ch) :
    (s.wait id p).Ok :=
  h.modify (fun x hx hok => ⟨fun hj => absurd hj hp, fun ch => hentering x ch hx, hok.subscribed⟩)

theorem State.Ok.send (h : s.Ok) (sent : Bool) : (s.send id sent).Ok :=
  h.modify (fun _ _ hok => ⟨hok.fresh, hok.entering, hok.subscribed⟩)

theorem State.Ok.disconnect (h : s.Ok) : (s.disconnect id).Ok := by
  unfold State.Ok
  rwa [sessions_disconnect]

theorem State.Ok.enter (h : s.Ok) {x : Session} (hx : s.sessions[id]? = some x) {ch : Channel}
    (hp : x.point = .entering ch) : (s.enter id ch).Ok := by
  refine h.modify (fun y hy hok => ?_)
  obtain rfl : y = x := by simpa [hx] using hy.symm
  refine ⟨fun hj => by simp [hp] at hj, hok.entering, fun c hc => ?_⟩
  rcases List.mem_insert_iff.mp hc with rfl | hc
  · exact hok.entering c hp
  · exact hok.subscribed c hc

theorem State.Ok.unsubscribe (h : s.Ok) (ch : Channel) : (s.unsubscribe id ch).Ok := by
  refine h.modify (fun x _ hok => ?_)
  refine ⟨fun hj => by simp [hok.fresh hj], hok.entering, fun c hc => ?_⟩
  exact hok.subscribed c (List.mem_of_mem_filter hc)

theorem State.Ok.accept (h : s.Ok) (rt : Runtime) (channel : Channel) (token : Option String) :
    { s with sessions := s.sessions.insert id (newSession rt channel token) : State }.Ok := by
  intro j y hy
  by_cases hj : id = j
  · subst j
    obtain rfl : newSession rt channel token = y := by simpa using hy
    exact ⟨fun _ => rfl, by simp [newSession], by simp [newSession]⟩
  · exact h j y (by simpa [getElem?_insert_ne _ _ hj] using hy)

theorem State.Ok.serve (h : s.Ok) {x : Session} (hx : s.sessions[id]? = some x) (r : Request) :
    (s.serve id x.conn r).Ok := by
  cases r with
  | subscribe c =>
    refine h.wait (subscribe_ne_joining x.conn c) (fun y ch hy hp => ?_)
    obtain rfl : y = x := by simpa [hx] using hy.symm
    exact subscribe_entering hp
  | unsubscribe c => cases c with
    | none => exact h
    | some ch => exact h.unsubscribe ch
  | ping => exact h.wait (by simp) (by simp)
  | ignore => exact h
  | raise => exact h.wait (by simp) (by simp)

theorem State.Ok.resume (h : s.Ok) {x : Session} (hx : s.sessions[id]? = some x) (sent : Bool) :
    (s.resume id x sent).Ok := by
  unfold State.resume
  split
  · refine State.Ok.wait (s := s.connect id) h (subscribe_ne_joining x.conn _)
      (fun y ch hy hp => ?_)
    obtain rfl : y = x := by simpa [State.connect, hx] using hy.symm
    exact subscribe_entering hp
  · exact (h.enter hx ‹_›).wait (by simp) (by simp)
  · exact (h.send sent).wait (by simp) (by simp)
  · exact h.disconnect.wait (by simp) (by simp)
  · exact h
  · exact h

theorem State.Ok.step (h : s.Ok) (rt : Runtime) (e : Event) : (step rt s e).Ok := by
  cases e with
  | accept id channel token =>
    simp only [WebSocket.step]
    split
    · exact h
    · exact h.accept rt channel token
  | receive id raw =>
    simp only [WebSocket.step]
    split
    · rename_i x hx
      split
      · exact h.serve hx _
      · exact h
    · exact h
  | resume id sent =>
    simp only [WebSocket.step]
    split
    · exact h.resume ‹_› sent
    · exact h
  | broadcast channel eventType data order =>
    simp only [WebSocket.step]
    split <;> exact h
  | sendToUser userId channel eventType data => exact h
  | heartbeat ts =>
    simp only [WebSocket.step]
    split <;> exact h
  | proceed place sent =>
    simp only [WebSocket.step]
    split
    · simp only [State.proceed]
      split
      · exact h.send sent
      · exact h.disconnect
    · exact h

end Sessions

/-- An id is in the set of a channel exactly if its connection is registered and subscribed to the
channel; for private channels the connection is authenticated. -/
structure State.Matches (s : State) : Prop where
  live : ∀ id ch, id ∈ s.channelConnections ch ↔ id ∈ s.connections ∧ ch ∈ s.subscriptions id
  authenticated : ∀ id ch, ch.isPrivate = true → id ∈ s.channelConnections ch → s.userId id ≠ none

/-- The handler is in no operation of the manager. -/
def Point.idle : Point → Bool
  | .receiving | .returned => true
  | .joining | .entering _ | .sending _ | .leaving => false

/-- No operation is in progress. -/
def State.Quiet (s : State) : Prop :=
  s.sweeps.isEmpty = true ∧ ∀ entry ∈ s.sessions.toList, entry.2.point.idle = true

instance State.decidableQuiet (s : State) : Decidable s.Quiet := inferInstanceAs (Decidable (_ ∧ _))

/-- What every state reached has. -/
structure State.Valid (s : State) : Prop where
  ok : s.Ok
  sound : s.registry.Sound

theorem valid_init : State.init.Valid where
  ok := by simp [State.Ok, State.init]
  sound := ⟨by simp [State.registry, State.init], by simp [State.registry, State.init]⟩

section Turns
variable (rt : Runtime)

/-- `subscribe` gets the lock for a connection that is no longer in `_connections`. -/
def SubscribesLate (id : ConnId) (ch : Channel) (s : State) (e : Event) : Prop :=
  (∃ x sent, e = .resume id sent ∧ s.sessions[id]? = some x ∧ x.point = .entering ch) ∧
    id ∉ s.connections

/-- The handler of the connection serves a request to unsubscribe from the channel. -/
def Unsubscribes (id : ConnId) (ch : Channel) (s : State) (e : Event) : Prop :=
  ∃ x raw, e = .receive id raw ∧ s.sessions[id]? = some x ∧ x.point = .receiving ∧
    receive rt x.channel raw = .unsubscribe (some ch)

variable {rt} {s : State} {e : Event} {id : ConnId} {ch : Channel}

theorem changeOf_eq_enter_iff : changeOf rt s e = some (.enter id ch) ↔
    ∃ x sent, e = .resume id sent ∧ s.sessions[id]? = some x ∧ x.point = .entering ch := by
  constructor
  · fun_cases changeOf rt s e
    case case5 x hx ch hp =>
      rintro ⟨⟩
      exact ⟨x, _, rfl, hx, hp⟩
    all_goals simp
  · rintro ⟨x, sent, rfl, hx, hp⟩
    simp [changeOf, hx, hp]

theorem changeOf_eq_drop_iff : changeOf rt s e = some (.drop id ch) ↔
    Unsubscribes rt id ch s e := by
  unfold Unsubscribes
  constructor
  · fun_cases changeOf rt s e
    case case1 x hx ch hr hp =>
      rintro ⟨⟩
      exact ⟨x, _, rfl, hx, hp, hr⟩
    all_goals simp
  · rintro ⟨x, raw, rfl, hx, hp, hr⟩
    simp [changeOf, hx, hp, hr]

theorem joining_of_changeOf_eq_join (h : changeOf rt s e = some (.join id)) :
    ∃ x, s.sessions[id]? = some x ∧ x.point = .joining := by
  revert h
  fun_cases changeOf rt s e
  case case4 x hx hp =>
    rintro ⟨⟩
    exact ⟨x, hx, hp⟩
  all_goals simp

/-- Handlers join with the subscriptions they start with, which are none. -/
theorem State.Ok.admits (h : s.Ok) : s.registry.Admits (changeOf rt s e) := by
  intro i hi k hk
  obtain ⟨x, hx, hp⟩ := joining_of_changeOf_eq_join hi
  simp [State.registry, State.subscriptions, hx, (h i x hx).fresh hp] at hk

theorem State.Valid.step (h : s.Valid) (rt : Runtime) (e : Event) : (step rt s e).Valid where
  ok := h.ok.step rt e
  sound := by
    rw [registry_step]
    exact h.sound.changes h.ok.admits

theorem State.Ok.userId_ne_none (h : s.Ok) (hsub : ch ∈ s.subscriptions id)
    (hprivate : ch.isPrivate = true) : s.userId id ≠ none := by
  cases hx : s.sessions[id]? with
  | none => simp [State.subscriptions, hx] at hsub
  | some x =>
    have hmem : ch ∈ x.conn.subscriptions := by simpa [State.subscriptions, hx] using hsub
    simpa [State.userId, hx] using (h id x hx).subscribed ch hmem hprivate

theorem State.Valid.matches_iff (h : s.Valid) :
    s.Matches ↔ ∀ id ch, ¬ s.registry.Stale (id, ch) := by
  have hagrees := h.sound.agrees_iff
  constructor
  · intro hm id ch
    exact hagrees.mp (fun p => hm.live p.1 p.2) (id, ch)
  · intro hstale
    have hlive := hagrees.mpr (fun p => hstale p.1 p.2)
    refine ⟨fun id ch => hlive (id, ch), fun id ch hprivate hid => ?_⟩
    exact h.ok.userId_ne_none (h.sound.recorded (id, ch) hid) hprivate

/-- A subscription goes stale when it is entered late, and stays so until it is taken back. -/
theorem State.Valid.stale_step_iff (h : s.Valid) (rt : Runtime) (e : Event) (id : ConnId)
    (ch : Channel) :
    (WebSocket.step rt s e).registry.Stale (id, ch) ↔
      SubscribesLate id ch s e ∨ (s.registry.Stale (id, ch) ∧ ¬ Unsubscribes rt id ch s e) := by
  rw [registry_step, h.sound.stale_changes_iff h.ok.admits, changeOf_eq_enter_iff, ne_eq,
    changeOf_eq_drop_iff]
  rfl

/-- At every point of every run, in the middle of operations or not, the tables match exactly if
each subscription entered for a connection that was disconnected before has been taken back by its
client since. -/
theorem tables_match_iff (rt : Runtime) (es : List Event) :
    (run (step rt) State.init es).Matches ↔
      ∀ id ch, ¬ Raised (SubscribesLate id ch) (Unsubscribes rt id ch) (step rt) State.init es := by
  have hvalid : (run (step rt) State.init es).Valid :=
    run_invariant (I := State.Valid) (fun s e h => h.step rt e) State.init es valid_init
  rw [hvalid.matches_iff]
  refine forall_congr' fun id => forall_congr' fun ch => not_congr ?_
  have hraised : (run (step rt) State.init es).registry.Stale (id, ch) ↔ _ :=
    run_iff_raised (I := State.Valid) (P := fun s => s.registry.Stale (id, ch))
      (fun s e h => h.stale_step_iff rt e id ch) (fun s e h => h.step rt e) valid_init
  simpa [State.registry, State.init, Registry.Stale] using hraised

end Turns

/-- A runtime that reads the one request below and accepts no token. -/
def explorerRuntime : Runtime where
  loads raw :=
    if raw = "\x7b\"action\": \"subscribe\", \"channel\": \"explorer\"\x7d" then
      some (.object [("action", .string "subscribe"), ("channel", .string "explorer")])
    else none
  sub _ := none

/-- A client joins, a heartbeat to it fails and it is pruned, and then its next request arrives. It
leaves, and a broadcast finds its id in the channel and disconnects it once more. -/
def lateRequest : List Event :=
  [.accept "c1" .markets none, .resume "c1" true, .resume "c1" true, .resume "c1" true,
    .heartbeat "12:00:30", .proceed 0 false, .proceed 0 true,
    .receive "c1" (some "\x7b\"action\": \"subscribe\", \"channel\": \"explorer\"\x7d"),
    .resume "c1" true, .resume "c1" false, .receive "c1" none, .resume "c1" true,
    .broadcast "explorer" "block" .null (IterOrder.listed ConnId), .proceed 0 true]

/-- The id stays in the set of the channel for good. -/
theorem late_subscription_stays :
    (run (step explorerRuntime) State.init lateRequest).Quiet ∧
      (run (step explorerRuntime) State.init lateRequest).connections = [] ∧
      "c1" ∈ (run (step explorerRuntime) State.init lateRequest).channelConnections .explorer ∧
      ¬ (run (step explorerRuntime) State.init lateRequest).Matches := by
  have hgone : (run (step explorerRuntime) State.init lateRequest).connections = [] := by
    decide +kernel
  have hid : "c1" ∈ (run (step explorerRuntime) State.init lateRequest).channelConnections
      .explorer := by
    decide +kernel
  refine ⟨by decide +kernel, hgone, hid, fun h => ?_⟩
  have hconnected := ((h.live "c1" .explorer).mp hid).1
  simp [hgone] at hconnected

end Sprax.WebSocket
