import EagleMQ.Binding
import EagleMQ.Utils

/-! Channels. A client keeps, for each channel, the keylist nodes of the channel
that list it. Topics and patterns are handled alike, by operations that take the
side as a parameter. -/

namespace EagleMQ

inductive Side where
  | topic
  | pattern
  deriving DecidableEq

def ChannelT.side (x : ChannelT) : Side → Keylist TopicNode Ptr
  | .topic => x.topics
  | .pattern => x.patterns

def ChannelT.setSide (x : ChannelT) (d : Side) (l : Keylist TopicNode Ptr) : ChannelT :=
  match d with
  | .topic => { x with topics := l }
  | .pattern => { x with patterns := l }

def EagleClient.side (x : EagleClient) : Side → Keylist Ptr TopicNode
  | .topic => x.subscribedTopics
  | .pattern => x.subscribedPatterns

def EagleClient.setSide (x : EagleClient) (d : Side) (l : Keylist Ptr TopicNode) : EagleClient :=
  match d with
  | .topic => { x with subscribedTopics := l }
  | .pattern => { x with subscribedPatterns := l }

theorem ChannelT.side_setSide (x : ChannelT) (d d' : Side) (l : Keylist TopicNode Ptr) :
    (x.setSide d l).side d' = if d' = d then l else x.side d' := by
  cases d <;> cases d' <;> rfl

theorem EagleClient.side_setSide (x : EagleClient) (d d' : Side) (l : Keylist Ptr TopicNode) :
    (x.setSide d l).side d' = if d' = d then l else x.side d' := by
  cases d <;> cases d' <;> rfl

/-- `keylist_get_value` by the name of a topic. -/
def findNode (l : Keylist TopicNode Ptr) (name : Name) : Option TopicNode :=
  l.keys.find? fun n => n.2 = name

def createChannelT (name : Name) (flags : ℕ) : ServerM Ptr := do
  let ch := (← get).fresh
  modify fun s => { s with
    channelAt := Function.update s.channelAt ch
      (some ⟨name, flags, bitCheck flags 0, bitCheck flags 1, [], []⟩)
    fresh := ch + 1 }
  pure ch

def renameChannelT (ch : Ptr) (name : Name) : ServerM Unit :=
  modifyChannel ch fun x => { x with name := name, flags := spill name x.flags }

/-! ### Subscriptions -/

def addKeylistChannelT (d : Side) (c ch : Ptr) (node : TopicNode) : ServerM Unit :=
  modifyClient c fun x =>
    if node ∈ (x.side d).values ch then x else x.setSide d ((x.side d).add ch node)

def removeKeylistChannelT (d : Side) (c ch : Ptr) (node : TopicNode) : ServerM Unit :=
  modifyClient c fun x => x.setSide d ((x.side d).remove ch node)

def linkSide (d : Side) (ch c : Ptr) (node : TopicNode) : ServerM Unit := do
  modifyChannel ch fun x => x.setSide d ((x.side d).add node c)
  addKeylistChannelT d c ch node

def subscribeSide (d : Side) (ch c : Ptr) (name : Name) : ServerM Unit := do
  let x ← getChannel ch
  match findNode (x.side d) name with
  | none =>
    let node : TopicNode := ((← get).fresh, name)
    modify fun s => { s with fresh := s.fresh + 1 }
    linkSide d ch c node
  | some node =>
    if c ∈ (x.side d).values node then pure () else linkSide d ch c node

def subscribeChannelT (ch c : Ptr) (topic : Name) : ServerM Unit := subscribeSide .topic ch c topic

def psubscribeChannelT (ch c : Ptr) (pattern : Name) : ServerM Unit :=
  subscribeSide .pattern ch c pattern

/-- `list_delete_value(server->channels, channel)`, by way of the destructor. -/
def listDeleteWith (destroy : Ptr → ServerM Unit) (ch : Ptr) : ServerM Bool := do
  if ch ∈ (← get).channels then
    modify fun s => { s with channels := s.channels.erase ch }
    destroy ch
    pure true
  else pure false

def unsubscribeWith (destroy : Ptr → ServerM Unit) (d : Side) (ch c : Ptr) (name : Name) :
    ServerM Bool := do
  match findNode ((← getChannel ch).side d) name with
  | none => pure false
  | some node =>
    modifyChannel ch fun x => x.setSide d ((x.side d).remove node c)
    removeKeylistChannelT d c ch node
    let x ← getChannel ch
    if x.autoDelete ∧ x.topics = [] ∧ x.patterns = [] then
      let _ ← listDeleteWith destroy ch
    pure true

/-! ### Destruction -/

/-- One side of `eject_clients_channel_t`. -/
def ejectSide (destroy : Ptr → ServerM Unit) (d : Side) (ch : Ptr) : ServerM Unit :=
  Prog.foreach (do pure ((← getChannel ch).side d).keys) .link fun node =>
    Prog.foreach (do pure (((← getChannel ch).side d).values node)) .link fun c => do
      let _ ← unsubscribeWith destroy d ch c node.2

/-- The destructor. Ejecting the last client may call it again, on a channel
that is off the server's list by then; the bound is on the depth of such calls. -/
def destroyChannelT : ℕ → Ptr → ServerM Unit
  | 0, _ => throw .depth
  | n + 1, ch => do
    ejectSide (destroyChannelT n) .topic ch
    ejectSide (destroyChannelT n) .pattern ch
    -- the two keylists are released by way of the record
    let _ ← getChannel ch
    modify fun s => s.freeChannel ch

/-- `delete_channel_t`: each nested call finds one channel less on the list. -/
def deleteChannelT (ch : Ptr) : ServerM Unit := do
  destroyChannelT ((← get).channels.length + 1) ch

def listDeleteChannel (ch : Ptr) : ServerM Bool := listDeleteWith deleteChannelT ch

def unsubscribeSide (d : Side) (ch c : Ptr) (name : Name) : ServerM Bool :=
  unsubscribeWith deleteChannelT d ch c name

def unsubscribeChannelT (ch c : Ptr) (topic : Name) : ServerM Bool :=
  unsubscribeSide .topic ch c topic

def punsubscribeChannelT (ch c : Ptr) (pattern : Name) : ServerM Bool :=
  unsubscribeSide .pattern ch c pattern

/-! ### Publishing -/

def channelClientEventMessage (c ch : Ptr) (topic : Name) (msg : Ptr) : ServerM Unit := do
  let size ← objectSize msg
  let x ← getChannel ch
  let body ← Prog.lift (copyStrings 96 [(0, x.cName), (64, topic)])
  addResponse c (eventHeader Cmd.channelSubscribe eventMessage (96 + size) ++ body)
  addObjectResponse c msg

def channelClientEventPatternMessage (c ch : Ptr) (topic pattern : Name) (msg : Ptr) :
    ServerM Unit := do
  let size ← objectSize msg
  let x ← getChannel ch
  let body ← Prog.lift (copyStrings 128 [(0, x.cName), (64, topic), (96, pattern)])
  addResponse c (eventHeader Cmd.channelPsubscribe eventMessage (128 + size) ++ body)
  addObjectResponse c msg

/-- The subscribers to a topic: the next one in turn, or all of them. -/
def publishTopic (ch : Ptr) (node : TopicNode) (topic : Name) (msg : Ptr) : ServerM Unit := do
  let x ← getChannel ch
  if x.roundRobin then
    modifyChannel ch fun x => x.setSide .topic (x.topics.set node (listRotate (x.topics.values node)))
    match ((← getChannel ch).topics.values node).head? with
    | some c => channelClientEventMessage c ch topic msg
    | none => throw .link
  else
    (x.topics.values node).forM fun c => channelClientEventMessage c ch topic msg

def publishPattern (ch : Ptr) (topic : Name) (msg : Ptr) (k : TopicNode × List Ptr) :
    ServerM Unit := do
  if ← Prog.lift (patternMatch topic k.1.2 false) then
    k.2.forM fun c => channelClientEventPatternMessage c ch topic k.1.2 msg

def publishMessageChannelT (ch : Ptr) (topic : Name) (msg : Ptr) : ServerM Unit := do
  let x ← getChannel ch
  match findNode x.topics topic with
  | none => pure ()
  | some node => publishTopic ch node topic msg
  x.patterns.forM (publishPattern ch topic msg)

end EagleMQ
