import Sprax.Gossip
import Sprax.Runs

/-!
# The peer registry of a node

Connections are numbered in the order in which they are opened. A connection
becomes a running loop after its handshake; the loop enters its sender into the
peers map under the id the peer gave, and takes that id out of the map when it
ends. Insertion overwrites, and removal does not look whose sender is stored, so
the map has no stale sender but can lose a peer that has a second connection.
-/
namespace Sprax.Network
open Std FiniteMap Runs

/-- The number of a connection; it stands for the sender of its channel too. -/
abbrev ConnId := ℕ

structure PeerHandle where
  peerId : PeerId
  remoteAddr : String
  height : ℕ
  latestBlockHash : Hash32
  sender : ConnId
  deriving DecidableEq

/-- The first frame that arrives on a connection. -/
inductive FirstFrame
  | handshake (hello : Hello) (listenAddr : Option String)
  | handshakeAck (hello : Hello)
  | other
  deriving DecidableEq

/-- Where a connection stands: dialed and waiting for the acknowledgement,
accepted and waiting for the handshake, agreed but not yet in its loop, in its
loop, or gone. The height is ours when it was opened. -/
inductive Phase
  | dialed (currentHeight : ℕ)
  | accepted (currentHeight : ℕ)
  | agreed (hello : Hello) (currentHeight : ℕ)
  | running (peerId : PeerId) (outbox : List NetworkMessage)
  | closed

structure P2pService where
  chainId : String
  peers : ExtTreeMap PeerId PeerHandle compare
  knownAddresses : List String
  conns : List Phase

inductive NetEvent
  | dial (currentHeight : ℕ)
  | accept (initialHeight : ℕ)
  | frame (conn : ConnId) (frame : FirstFrame)
  | start (conn : ConnId)
  | close (conn : ConnId)
  | broadcast (msg : NetworkMessage)

/-- The chain of the peer has to be ours. -/
def checkChain (chainId : String) (hello : Hello) : Except String Hello :=
  let peerChainId := hello.chainId
  if peerChainId ≠ chainId then .error s!"chain ID mismatch: {peerChainId} != {chainId}"
    else .ok hello

/-- The handshake of an inbound connection, with the text of its failure. -/
def inboundHandshake (chainId : String) : FirstFrame → Except String Hello
  | .handshake hello _ => checkChain chainId hello
  | _ => .error "expected Handshake message"

/-- The handshake of an outbound connection. -/
def outboundHandshake (chainId : String) : FirstFrame → Except String Hello
  | .handshakeAck hello => checkChain chainId hello
  | _ => .error "expected HandshakeAck message"

namespace P2pService

def new (chainId : String) (bootstrapPeers : List String) : P2pService :=
  ⟨chainId, ∅, bootstrapPeers, []⟩

/-- The phase after the first frame. -/
def afterHandshake (currentHeight : ℕ) : Except String Hello → Phase
  | .ok hello => .agreed hello currentHeight
  | .error _ => .closed

/-- A handshake for our chain also leaves the address its sender listens on. -/
def learn (n : P2pService) : FirstFrame → List String
  | .handshake hello (some addr) =>
    if hello.chainId = n.chainId ∧ addr ∉ n.knownAddresses then n.knownAddresses ++ [addr]
    else n.knownAddresses
  | _ => n.knownAddresses

/-- The first frame of a connection. -/
def receiveFrame (n : P2pService) (conn : ConnId) (frame : FirstFrame) : P2pService :=
  match n.conns[conn]? with
  | some (.accepted currentHeight) =>
    { n with
      knownAddresses := n.learn frame
      conns := n.conns.set conn (afterHandshake currentHeight (inboundHandshake n.chainId frame)) }
  | some (.dialed currentHeight) =>
    { n with
      conns := n.conns.set conn (afterHandshake currentHeight (outboundHandshake n.chainId frame)) }
  | _ => n

/-- Entry of `run_connection_loop`: the handle is inserted, and a peer that is
ahead is asked for its blocks. -/
def startLoop (n : P2pService) (conn : ConnId) : P2pService :=
  match n.conns[conn]? with
  | some (.agreed hello currentHeight) =>
    let outbox : List NetworkMessage :=
      if currentHeight < hello.height then
        [.getBlocksRequest (currentHeight + 1) hello.height]
      else []
    { n with
      peers := n.peers.insert hello.peerId
        ⟨hello.peerId, "", hello.height, hello.latestBlockHash, conn⟩
      conns := n.conns.set conn (.running hello.peerId outbox) }
  | _ => n

/-- A connection ends. A loop removes its peer id; an attempt that never reached
the loop leaves nothing behind. -/
def closeConn (n : P2pService) (conn : ConnId) : P2pService :=
  match n.conns[conn]? with
  | some (.running peerId _) =>
    { n with peers := n.peers.erase peerId, conns := n.conns.set conn .closed }
  | _ => { n with conns := n.conns.set conn .closed }

/-- Sending on a channel; it fails unnoticed once the loop is gone. -/
def send (conns : List Phase) (msg : NetworkMessage) (sender : ConnId) : List Phase :=
  match conns[sender]? with
  | some (.running peerId outbox) => conns.set sender (.running peerId (outbox ++ [msg]))
  | _ => conns

/-- One message to every sender in the map. -/
def broadcast (n : P2pService) (msg : NetworkMessage) : P2pService :=
  { n with
    conns := (n.peers.toList.map (fun e => e.2.sender)).foldl
      (fun conns c => send conns msg c) n.conns }

def step (n : P2pService) : NetEvent → P2pService
  | .dial currentHeight => { n with conns := n.conns ++ [.dialed currentHeight] }
  | .accept initialHeight => { n with conns := n.conns ++ [.accepted initialHeight] }
  | .frame conn frame => n.receiveFrame conn frame
  | .start conn => n.startLoop conn
  | .close conn => n.closeConn conn
  | .broadcast msg => n.broadcast msg

/-- The connection is in its loop, for this peer id. -/
def LoopIn (conns : List Phase) (conn : ConnId) (id : PeerId) : Prop :=
  ∃ outbox, conns[conn]? = some (.running id outbox)

/-- A connection loop for the peer id is running. -/
def Loop (n : P2pService) (conn : ConnId) (id : PeerId) : Prop := LoopIn n.conns conn id

/-- A peer id is in the map with a sender whose loop runs exactly when a loop for
it runs. -/
def Matches (n : P2pService) : Prop :=
  ∀ id, (∃ h, n.peers[id]? = some h ∧ n.Loop h.sender id) ↔ ∃ conn, n.Loop conn id

/-- Every stored sender belongs to a running loop for its id. -/
def NoStale (n : P2pService) : Prop := ∀ id h, n.peers[id]? = some h → n.Loop h.sender id

/-- The step does not end a loop while another one for the same peer id runs. -/
def Alone (n : P2pService) : NetEvent → Prop
  | .close conn => ∀ id, n.Loop conn id → ∀ other, n.Loop other id → other = conn
  | _ => True

variable {n : P2pService}

theorem Loop.unique {conn : ConnId} {i j : PeerId} (hi : n.Loop conn i) (hj : n.Loop conn j) :
    i = j := by
  obtain ⟨o, hi⟩ := hi
  obtain ⟨o', hj⟩ := hj
  rw [hi] at hj
  cases hj
  rfl

/-- With no stale sender, the registry matches if every running loop's id is in it. -/
theorem NoStale.matches_iff (h : n.NoStale) :
    n.Matches ↔ ∀ conn id, n.Loop conn id → ∃ handle, n.peers[id]? = some handle := by
  constructor
  · intro hm conn id hloop
    obtain ⟨handle, hh, -⟩ := (hm id).mpr ⟨conn, hloop⟩
    exact ⟨handle, hh⟩
  · intro hp id
    constructor
    · rintro ⟨handle, -, hloop⟩
      exact ⟨handle.sender, hloop⟩
    · rintro ⟨conn, hloop⟩
      obtain ⟨handle, hh⟩ := hp conn id hloop
      exact ⟨handle, hh, h id handle hh⟩

section Loops
variable {conns : List Phase} {conn d : ConnId} {p : Phase} {id : PeerId}

theorem loopIn_set_ne (h : d ≠ conn) : LoopIn (conns.set conn p) d id ↔ LoopIn conns d id := by
  unfold LoopIn
  rw [List.getElem?_set_ne h.symm]

theorem loopIn_set_self {q : Phase} (h : conns[conn]? = some q) :
    LoopIn (conns.set conn p) conn id ↔ ∃ outbox, p = .running id outbox := by
  unfold LoopIn
  have hlt := (List.getElem?_eq_some_iff.mp h).1
  rw [List.getElem?_set_self hlt]
  simp only [Option.some.injEq]

/-- A phase that is not a loop is exchanged for another. -/
theorem loopIn_set_idle {q : Phase} (h : conns[conn]? = some q) (hq : ∀ id o, q ≠ .running id o)
    (hp : ∀ id o, p ≠ .running id o) : LoopIn (conns.set conn p) d id ↔ LoopIn conns d id := by
  by_cases hd : d = conn
  · subst hd
    rw [loopIn_set_self h]
    refine iff_of_false (fun ⟨o, ho⟩ => hp id o ho) (fun ⟨o, ho⟩ => hq id o ?_)
    rw [h] at ho
    exact Option.some.inj ho
  · exact loopIn_set_ne hd

theorem loopIn_append (hp : ∀ id o, p ≠ .running id o) : LoopIn (conns ++ [p]) d id ↔
    LoopIn conns d id := by
  unfold LoopIn
  by_cases hlt : d < conns.length
  · rw [List.getElem?_append_left hlt]
  · have hnone : conns[d]? = none := List.getElem?_eq_none (Nat.le_of_not_lt hlt)
    rw [List.getElem?_append_right (Nat.le_of_not_lt hlt), hnone]
    refine iff_of_false (fun ⟨o, ho⟩ => ?_) (fun ⟨o, ho⟩ => by cases ho)
    exact hp id o (List.mem_singleton.mp (List.mem_of_getElem? ho)).symm

theorem afterHandshake_ne (currentHeight : ℕ) (r : Except String Hello) (id : PeerId)
    (o : List NetworkMessage) : afterHandshake currentHeight r ≠ .running id o := by
  cases r <;> simp [afterHandshake]

theorem loopIn_send (msg : NetworkMessage) (sender : ConnId) :
    LoopIn (send conns msg sender) d id ↔ LoopIn conns d id := by
  unfold send
  split
  · rename_i peerId outbox hs
    by_cases hd : d = sender
    · subst hd
      rw [loopIn_set_self hs, LoopIn, hs]
      simp
    · exact loopIn_set_ne hd
  · rfl

theorem loopIn_sends (msg : NetworkMessage) (senders : List ConnId) :
    LoopIn (senders.foldl (fun conns c => send conns msg c) conns) d id ↔ LoopIn conns d id := by
  induction senders generalizing conns with
  | nil => rfl
  | cons c rest ih => rw [List.foldl_cons, ih, loopIn_send]

end Loops

/-- All that a step can do to loops and map: nothing, a new loop under its id, or
the end of a loop. -/
inductive Stepped (n : P2pService) : NetEvent → P2pService → Prop
  | idle {ev m} (hev : ∀ conn id, ev = .close conn → ¬ n.Loop conn id) (hpeers : m.peers = n.peers)
      (hloops : ∀ d id, m.Loop d id ↔ n.Loop d id) : Stepped n ev m
  | started {conn m} (handle : PeerHandle) (hsender : handle.sender = conn)
      (hpeers : m.peers = n.peers.insert handle.peerId handle)
      (hloops : ∀ d id, m.Loop d id ↔ (d = conn ∧ id = handle.peerId) ∨ n.Loop d id)
      (hnew : ∀ id, ¬ n.Loop conn id) : Stepped n (.start conn) m
  | ended {conn id m} (hloop : n.Loop conn id) (hpeers : m.peers = n.peers.erase id)
      (hloops : ∀ d i, m.Loop d i ↔ d ≠ conn ∧ n.Loop d i) : Stepped n (.close conn) m

theorem stepped_start (n : P2pService) (conn : ConnId) :
    Stepped n (.start conn) (n.step (.start conn)) := by
  cases hc : n.conns[conn]? with
  | none =>
    exact .idle (fun _ _ h => by cases h) (by simp [step, startLoop, hc])
      (by simp [step, startLoop, hc])
  | some ph =>
    cases ph with
    | agreed hello currentHeight =>
      have hnew : ∀ id, ¬ n.Loop conn id := by simp [Loop, LoopIn, hc]
      refine .started ⟨hello.peerId, "", hello.height, hello.latestBlockHash, conn⟩ rfl
        (by simp [step, startLoop, hc]) (fun d id => ?_) hnew
      simp only [step, startLoop, hc]
      by_cases hd : d = conn
      · subst hd
        simp only [Loop, loopIn_set_self hc, Phase.running.injEq, exists_and_left, exists_eq',
          and_true, true_and, eq_comm (a := hello.peerId)]
        exact (or_iff_left (hnew id)).symm
      · simp only [Loop, loopIn_set_ne hd, hd, false_and, false_or]
    | _ =>
      exact .idle (fun _ _ h => by cases h) (by simp [step, startLoop, hc])
        (by simp [step, startLoop, hc])

theorem stepped_close (n : P2pService) (conn : ConnId) :
    Stepped n (.close conn) (n.step (.close conn)) := by
  cases hc : n.conns[conn]? with
  | none =>
    have hset : n.conns.set conn .closed = n.conns :=
      List.set_eq_of_length_le (List.getElem?_eq_none_iff.mp hc)
    have hnone : ∀ id, ¬ n.Loop conn id := by simp [Loop, LoopIn, hc]
    refine .idle ?_ (by simp [step, closeConn, hc]) (by simp [step, closeConn, hc, hset, Loop])
    rintro _ id ⟨⟩
    exact hnone id
  | some ph =>
    cases ph with
    | running peerId outbox =>
      refine .ended ⟨outbox, hc⟩ (by simp [step, closeConn, hc]) (fun d i => ?_)
      simp only [step, closeConn, hc, Loop]
      by_cases hd : d = conn
      · subst hd
        simp [loopIn_set_self hc]
      · simp [loopIn_set_ne hd, hd]
    | _ =>
      have hnone : ∀ id, ¬ n.Loop conn id := by simp [Loop, LoopIn, hc]
      refine .idle ?_ (by simp [step, closeConn, hc]) (fun d i => ?_)
      · rintro _ id ⟨⟩
        exact hnone id
      · simp only [step, closeConn, hc, Loop]
        exact loopIn_set_idle hc (by simp) (by simp)

theorem stepped (n : P2pService) (ev : NetEvent) : Stepped n ev (n.step ev) := by
  cases ev with
  | dial currentHeight =>
    exact .idle (fun _ _ h => by cases h) rfl (fun d id => loopIn_append (by simp))
  | accept initialHeight =>
    exact .idle (fun _ _ h => by cases h) rfl (fun d id => loopIn_append (by simp))
  | frame conn frame =>
    refine .idle (fun _ _ h => by cases h) ?_ (fun d id => ?_)
    · simp only [step, receiveFrame]
      split <;> rfl
    · simp only [step, receiveFrame]
      split
      · rename_i hc
        exact loopIn_set_idle hc (by simp) (afterHandshake_ne _ _)
      · rename_i hc
        exact loopIn_set_idle hc (by simp) (afterHandshake_ne _ _)
      · rfl
  | start conn => exact stepped_start n conn
  | close conn => exact stepped_close n conn
  | broadcast msg =>
    exact .idle (fun _ _ h => by cases h) rfl (fun d id => loopIn_sends msg _)

/-- No step leaves a stale sender: whichever loop of a peer ends, the entry goes. -/
theorem Stepped.noStale {ev : NetEvent} {m : P2pService} (h : Stepped n ev m) (hn : n.NoStale) :
    m.NoStale := by
  intro i h' hi
  cases h with
  | idle hev hpeers hloops =>
    rw [hpeers] at hi
    exact (hloops _ i).mpr (hn i h' hi)
  | started handle hsender hpeers hloops hnew =>
    rw [hpeers, ExtTreeMap.getElem?_insert] at hi
    split at hi
    · rename_i heq
      cases hi
      exact (hloops _ i).mpr (.inl ⟨hsender, (LawfulEqCmp.eq_of_compare heq).symm⟩)
    · exact (hloops _ i).mpr (.inr (hn i h' hi))
  | @ended conn id _ hloop hpeers hloops =>
    rw [hpeers] at hi
    obtain ⟨hne, hi⟩ := getElem?_of_erase hi
    have hold := hn i h' hi
    refine (hloops _ i).mpr ⟨?_, hold⟩
    rintro rfl
    exact hne (hloop.unique hold)

/-- The step: a matching registry keeps matching unless a loop ends beside
another one for the same id. -/
theorem Stepped.matches_iff {ev : NetEvent} {m : P2pService} (h : Stepped n ev m) (hn : n.NoStale)
    (hm : n.Matches) : m.Matches ↔ n.Alone ev := by
  have hold := hn.matches_iff.mp hm
  rw [(h.noStale hn).matches_iff]
  cases h with
  | idle hev hpeers hloops =>
    refine iff_of_true (fun d i hd => ?_) ?_
    · rw [hpeers]
      exact hold d i ((hloops d i).mp hd)
    · cases ev with
      | close conn => exact fun id hid => absurd hid (hev conn id rfl)
      | _ => trivial
  | started handle hsender hpeers hloops hnew =>
    refine iff_of_true (fun d i hd => ?_) trivial
    rw [hpeers, ExtTreeMap.getElem?_insert]
    split
    · exact ⟨handle, rfl⟩
    · rename_i hne
      rcases (hloops d i).mp hd with ⟨-, rfl⟩ | hd
      · exact absurd ReflCmp.compare_self hne
      · exact hold d i hd
  | @ended conn id _ hloop hpeers hloops =>
    constructor
    · intro hpresent i hi d hd
      cases hloop.unique hi
      by_contra hne
      obtain ⟨handle, hh⟩ := hpresent d id ((hloops d id).mpr ⟨hne, hd⟩)
      rw [hpeers] at hh
      exact (getElem?_of_erase hh).1 rfl
    · intro halone d i hd
      obtain ⟨hne, hd⟩ := (hloops d i).mp hd
      have hid : id ≠ i := by
        rintro rfl
        exact hne (halone id hloop d hd)
      rw [hpeers, getElem?_erase_ne _ hid]
      exact hold d i hd

/-- The message waits to be written by the loop. -/
def Holds (conns : List Phase) (msg : NetworkMessage) (conn : ConnId) (id : PeerId) : Prop :=
  ∃ outbox, conns[conn]? = some (.running id outbox) ∧ msg ∈ outbox

theorem holds_send_self {conns : List Phase} {msg : NetworkMessage} {conn : ConnId} {id : PeerId}
    (h : LoopIn conns conn id) : Holds (send conns msg conn) msg conn id := by
  obtain ⟨o, ho⟩ := h
  have hlt := (List.getElem?_eq_some_iff.mp ho).1
  refine ⟨o ++ [msg], ?_, by simp⟩
  simp only [send, ho, List.getElem?_set_self hlt]

theorem Holds.send {conns : List Phase} {msg : NetworkMessage} {conn : ConnId} {id : PeerId}
    (h : Holds conns msg conn id) (c : ConnId) :
      Holds (P2pService.send conns msg c) msg conn id := by
  by_cases hc : c = conn
  · subst hc
    obtain ⟨o, ho, -⟩ := h
    exact holds_send_self ⟨o, ho⟩
  · obtain ⟨o, ho, hmem⟩ := h
    refine ⟨o, ?_, hmem⟩
    unfold P2pService.send
    split
    · rw [List.getElem?_set_ne hc, ho]
    · exact ho

theorem holds_sends {conns : List Phase} {msg : NetworkMessage} {conn : ConnId} {id : PeerId}
    {senders : List ConnId} (h : Holds conns msg conn id ∨ conn ∈ senders ∧ LoopIn conns conn id) :
    Holds (senders.foldl (fun conns c => P2pService.send conns msg c) conns) msg conn id := by
  induction senders generalizing conns with
  | nil => exact h.resolve_right (by simp)
  | cons c rest ih =>
    rw [List.foldl_cons]
    apply ih
    rcases h with h | ⟨hmem, hloop⟩
    · exact .inl (h.send c)
    · rcases List.mem_cons.mp hmem with rfl | hmem
      · exact .inl (holds_send_self hloop)
      · exact .inr ⟨hmem, (loopIn_send msg c).mpr hloop⟩

/-- Every peer with a running loop has one that is given the message. -/
def Reaches (n : P2pService) : Prop :=
  ∀ msg conn id, n.Loop conn id → ∃ c, Holds (n.broadcast msg).conns msg c id

theorem Matches.reaches (h : n.Matches) : n.Reaches := by
  intro msg conn id hloop
  obtain ⟨handle, hh, hsender⟩ := (h id).mpr ⟨conn, hloop⟩
  refine ⟨handle.sender, holds_sends (.inr ⟨?_, hsender⟩)⟩
  exact List.mem_map.mpr ⟨(id, handle), ExtTreeMap.mem_toList_iff_getElem?_eq_some.mpr hh, rfl⟩

theorem new_noStale (chainId : String) (bootstrapPeers : List String) :
    (new chainId bootstrapPeers).NoStale := by
  intro id h hh
  simp [new] at hh

theorem new_matches (chainId : String) (bootstrapPeers : List String) :
    (new chainId bootstrapPeers).Matches := by
  refine (new_noStale chainId bootstrapPeers).matches_iff.mpr ?_
  rintro conn id ⟨o, ho⟩
  simp [new] at ho

/-- In every interleaving of connections the registry matches the running loops
throughout exactly if no loop ends beside another one for the same peer id; and
where it matches, broadcasts reach every connected peer. -/
theorem registry_matches_iff (chainId : String) (bootstrapPeers : List String)
    (events : List NetEvent) :
    (Throughout Matches step (new chainId bootstrapPeers) events ↔
      Along Alone step (new chainId bootstrapPeers) events) ∧
    ∀ n : P2pService, n.Matches → n.Reaches := by
  refine ⟨?_, fun n hn => hn.reaches⟩
  exact throughout_iff_along (I := NoStale) (Q := fun _ => True)
    (fun n ev _ hstale hmatch => (stepped n ev).matches_iff hstale hmatch)
    (fun n ev _ hstale _ _ => (stepped n ev).noStale hstale) (fun _ _ => trivial)
    (new_noStale chainId bootstrapPeers) (new_matches chainId bootstrapPeers)

/-- The handshake data of a peer of the same chain. -/
def devHello : Hello := ⟨"peer", "sprax-devnet-1", 0, Hash32.zero⟩

/-- The peer dials us, and its connection runs. -/
def inboundEvents : List NetEvent :=
  [.accept 0, .frame 0 (.handshake devHello none), .start 0]

/-- We dial the peer as well. -/
def outboundEvents : List NetEvent :=
  [.dial 0, .frame 1 (.handshakeAck devHello), .start 1]

/-- Both connections open and none closes: the registry matches throughout. -/
theorem registry_matches_devnet :
    Throughout Matches step (new "sprax-devnet-1" []) (inboundEvents ++ outboundEvents) ∧
      (run step (new "sprax-devnet-1" []) (inboundEvents ++ outboundEvents)).Reaches := by
  have hmain := registry_matches_iff "sprax-devnet-1" [] (inboundEvents ++ outboundEvents)
  have halong : Along Alone step (new "sprax-devnet-1" []) (inboundEvents ++ outboundEvents) :=
    ⟨trivial, trivial, trivial, trivial, trivial, trivial, trivial⟩
  have hall := hmain.1.mpr halong
  exact ⟨hall, hmain.2 _ (throughout_iff.mp hall _ (List.prefix_refl _))⟩

/-- When the first of the two connections closes, the second keeps running and
its peer is no longer in the map. -/
theorem second_connection_lost :
    ¬ (run step (new "sprax-devnet-1" [])
      (inboundEvents ++ outboundEvents ++ [.close 0])).Matches := by
  intro h
  obtain ⟨handle, hh, -⟩ := (h "peer").mpr ⟨1, [], by rfl⟩
  have hnone : (run step (new "sprax-devnet-1" [])
      (inboundEvents ++ outboundEvents ++ [.close 0])).peers["peer"]? = none := by decide +kernel
  rw [hnone] at hh
  cases hh

end P2pService

end Sprax.Network
