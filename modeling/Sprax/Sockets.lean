import Sprax.FiniteMap
import Sprax.Serde

/-!
# WebSocket connections of the backend

A handler task serves each connection, and broadcasts and the heartbeat loop send to many of them
and prune those whose sends fail. The tasks take turns at their awaits: the lock is held over none,
so a locked section is one turn. Pruning a connection does not stop its handler, which may still be
waiting for its client.
-/
namespace Sprax.WebSocket
open Std FiniteMap

abbrev ConnId := String

inductive Channel
  | markets | blockchain | explorer | perps | notifications
  deriving DecidableEq

def Channel.name : Channel → String
  | .markets => "markets"
  | .blockchain => "blockchain"
  | .explorer => "explorer"
  | .perps => "perps"
  | .notifications => "notifications"

/-- `CHANNELS` -/
def channels : List Channel := [.markets, .blockchain, .explorer, .perps, .notifications]

def channel? (name : String) : Option Channel := channels.find? (·.name = name)

/-- `PRIVATE_CHANNELS` -/
def Channel.isPrivate (ch : Channel) : Bool := ch = .notifications || ch = .perps

/-- What `_event` puts together; the version and the time of sending are left out. -/
structure Message where
  type : String
  data : Value

/-- What a connection object holds besides its id. -/
structure Connection where
  userId : Option String
  subscriptions : List Channel
  alive : Bool

/-- Where a handler waits: for the lock in `connect`, in `subscribe` or in the last `disconnect`,
for a send, or for the client. -/
inductive Point
  | joining
  | entering (ch : Channel)
  | sending (message : Message)
  | receiving
  | leaving
  | returned

/-- A handler with its connection and the channel of its route. -/
structure Session where
  conn : Connection
  channel : Channel
  point : Point

/-- The loops that send to many connections. -/
inductive Loop
  | broadcast
  | toUser (userId : String) (ch : Option Channel)
  | heartbeat
  deriving DecidableEq

/-- Where a loop waits: for a send, with the ids still to come and the dead ones found so far, or
for the lock in `disconnect`, with the dead ones after it. -/
inductive Await
  | send (id : ConnId) (todo dead : List ConnId)
  | lock (id : ConnId) (dead : List ConnId)

structure Sweep where
  loop : Loop
  message : Message
  await : Await

/-- The manager's tables and the tasks at work. `_connections` maps ids to the sessions'
connections. -/
structure State where
  connections : List ConnId
  channelConnections : Channel → List ConnId
  sessions : ExtTreeMap ConnId Session
  sweeps : List Sweep

def State.init : State := ⟨[], fun _ => [], ∅, []⟩

namespace State
variable (s : State) (id : ConnId)

def subscriptions : List Channel := (s.sessions[id]?.map (·.conn.subscriptions)).getD []

def userId : Option String := s.sessions[id]?.bind (·.conn.userId)

def alive : Bool := s.sessions[id]?.any (·.conn.alive)

def modify (f : Session → Session) : State := { s with sessions := s.sessions.modify id f }

def wait (p : Point) : State := s.modify id (fun x => { x with point := p })

/-- `Connection.send` when it returns. -/
def send (sent : Bool) : State :=
  s.modify id (fun x => { x with conn := { x.conn with alive := x.conn.alive && sent } })

/-- The locked section of `connect`. -/
def connect : State := { s with connections := s.connections ++ [id] }

/-- The locked section of `disconnect`. -/
def disconnect : State :=
  if id ∈ s.connections then
    { s with
      connections := s.connections.filter (· ≠ id)
      channelConnections := fun ch =>
        if ch ∈ s.subscriptions id then (s.channelConnections ch).filter (· ≠ id)
        else s.channelConnections ch }
  else s

/-- The subscriptions of a connection and its id in the set of the channel change together. -/
def tables (topics : List Channel → List Channel) (ch : Channel) (ids : List ConnId → List ConnId) :
    State :=
  let t := s.modify id
    (fun x => { x with conn := { x.conn with subscriptions := topics x.conn.subscriptions } })
  { t with
    channelConnections := Function.update s.channelConnections ch (ids (s.channelConnections ch)) }

/-- The locked section of `subscribe`. -/
def enter (ch : Channel) : State := s.tables id (List.insert ch) ch (List.insert id)

/-- What the handler does for `unsubscribe`, without the lock. -/
def unsubscribe (ch : Channel) : State :=
  s.tables id (List.filter (· ≠ ch)) ch (List.filter (· ≠ id))

end State

/-- `subscribe` up to its first await; a channel that is none is refused without a message. -/
def subscribe (conn : Connection) : Option Channel → Point
  | none => .receiving
  | some ch =>
    if ch.isPrivate ∧ conn.userId = none then
      .sending ⟨"error",
        .object [("message", .string "Authentication required for private channel")]⟩
    else .entering ch

/-- The libraries: `json.loads`, and the `sub` of a token that `verify_access_token` accepts. -/
structure Runtime where
  loads : String → Option Value
  sub : String → Option String

/-- What a text asks for; `raise` where its handling raises an exception. -/
inductive Request
  | subscribe (ch : Option Channel)
  | unsubscribe (ch : Option Channel)
  | ping
  | ignore
  | raise

/-- The `channel` member, the handler's own by default. Arrays and objects have no hash and raise
in the lookup. -/
def requested (own : Channel) (msg : Value) (make : Option Channel → Request) : Request :=
  match msg.get "channel" with
  | none => make (some own)
  | some (.string name) => make (channel? name)
  | some (.array _) | some (.object _) => .raise
  | some _ => make none

def request (rt : Runtime) (own : Channel) (raw : String) : Request :=
  match rt.loads raw with
  | none => .ignore
  | some (.object members) =>
    let msg := Value.object members
    match msg.get "action" with
    | some (.string "subscribe") => requested own msg .subscribe
    | some (.string "unsubscribe") => requested own msg .unsubscribe
    | some (.string "ping") => .ping
    | _ => .ignore
  | some _ => .raise

/-- The request of the next text of the client; the end of the connection raises. -/
def receive (rt : Runtime) (own : Channel) (raw : Option String) : Request :=
  raw.elim .raise (request rt own)

/-- The turn of a handler that has received. -/
def State.serve (s : State) (id : ConnId) (conn : Connection) : Request → State
  | .subscribe ch => s.wait id (subscribe conn ch)
  | .unsubscribe (some ch) => s.unsubscribe id ch
  | .unsubscribe none => s
  | .ping => s.wait id (.sending ⟨"pong", .object []⟩)
  | .ignore => s
  | .raise => s.wait id .leaving

/-- The turn of a handler whose lock or send is there. -/
def State.resume (s : State) (id : ConnId) (x : Session) (sent : Bool) : State :=
  match x.point with
  | .joining => (s.connect id).wait id (subscribe x.conn (some x.channel))
  | .entering ch =>
    (s.enter id ch).wait id (.sending ⟨"subscribed", .object [("channel", .string ch.name)]⟩)
  | .sending _ => (s.send id sent).wait id .receiving
  | .leaving => (s.disconnect id).wait id .returned
  | .receiving | .returned => s

/-- `for conn_id in dead`, up to the next lock. -/
def prune (loop : Loop) (message : Message) : List ConnId → Option Sweep
  | [] => none
  | id :: dead => some ⟨loop, message, .lock id dead⟩

/-- The loop up to its next await: the next connection it sends to, or the pruning. -/
def State.sweep (s : State) (loop : Loop) (message : Message) : List ConnId → List ConnId →
    Option Sweep
  | [], dead => prune loop message dead
  | id :: todo, dead =>
    match loop with
    | .broadcast =>
      if id ∈ s.connections ∧ s.alive id then some ⟨loop, message, .send id todo dead⟩
      else s.sweep loop message todo (dead ++ [id])
    | .toUser userId ch =>
      if s.userId id = some userId ∧ ∃ c ∈ ch, c ∈ s.subscriptions id then
        some ⟨loop, message, .send id todo dead⟩
      else s.sweep loop message todo dead
    | .heartbeat => some ⟨loop, message, .send id todo dead⟩

/-- The dead connections after a send; `send_to_user` collects none. -/
def State.buried (s : State) (loop : Loop) (id : ConnId) (dead : List ConnId) : List ConnId :=
  match loop with
  | .toUser _ _ => dead
  | .broadcast | .heartbeat => if s.alive id then dead else dead ++ [id]

def State.start (s : State) (sweep : Option Sweep) : State :=
  { s with sweeps := s.sweeps ++ sweep.toList }

/-- The loop at a place goes on to its next await, or ends. -/
def State.goOn (s : State) (place : ℕ) (sweep : Option Sweep) : State :=
  { s with sweeps := s.sweeps.take place ++ sweep.toList ++ s.sweeps.drop (place + 1) }

def State.proceed (s : State) (place : ℕ) (x : Sweep) (sent : Bool) : State :=
  match x.await with
  | .send id todo dead =>
    let t := s.send id sent
    t.goOn place (t.sweep x.loop x.message todo (t.buried x.loop id dead))
  | .lock id dead => (s.disconnect id).goOn place (prune x.loop x.message dead)

/-- One turn of the event loop. A set is listed in any order; `sent` says whether the send that is
awaited went through. -/
inductive Event
  | accept (id : ConnId) (channel : Channel) (token : Option String)
  | receive (id : ConnId) (raw : Option String)
  | resume (id : ConnId) (sent : Bool)
  | broadcast (channel eventType : String) (data : Value) (order : IterOrder ConnId)
  | sendToUser (userId channel eventType : String) (data : Value)
  | heartbeat (ts : String)
  | proceed (place : ℕ) (sent : Bool)

section Steps
variable (rt : Runtime)

/-- The connection object of a client whose socket has been accepted. An empty token is no token. -/
def newSession (channel : Channel) (token : Option String) : Session :=
  { conn :=
      { userId := (token.filter (· ≠ "")).bind rt.sub
        subscriptions := []
        alive := true }
    channel
    point := .joining }

/-- Ids are drawn afresh. There is one heartbeat loop, and it sleeps only when it is through. -/
def step (s : State) : Event → State
  | .accept id channel token =>
    if id ∈ s.sessions then s
    else { s with sessions := s.sessions.insert id (newSession rt channel token) }
  | .receive id raw =>
    match s.sessions[id]? with
    | some x => match x.point with
      | .receiving => s.serve id x.conn (receive rt x.channel raw)
      | _ => s
    | none => s
  | .resume id sent =>
    match s.sessions[id]? with
    | some x => s.resume id x sent
    | none => s
  | .broadcast channel eventType data order =>
    match channel? channel with
    | some ch =>
      s.start (s.sweep .broadcast ⟨eventType, data⟩ (order.arrange (s.channelConnections ch)) [])
    | none => s
  | .sendToUser userId channel eventType data =>
    s.start (s.sweep (.toUser userId (channel? channel)) ⟨eventType, data⟩ s.connections [])
  | .heartbeat ts =>
    if s.sweeps.any (·.loop = .heartbeat) then s
    else s.start (s.sweep .heartbeat ⟨"heartbeat", .object [("ts", .string ts)]⟩ s.connections [])
  | .proceed place sent =>
    match s.sweeps[place]? with
    | some x => s.proceed place x sent
    | none => s

end Steps

end Sprax.WebSocket
