import EagleMQ.Server

/-! Routes and their bindings to queues. Both sides of a binding keep their own
keyed multimap, and a route that deletes itself may go away with its last key. -/

namespace EagleMQ

/-- `find_queue_t` and its kin: the first record of a name in a list. -/
def findNamed (nameOf : Ptr → Option Name) (name : Name) : List Ptr → Except Fault (Option Ptr)
  | [] => .ok none
  | p :: l =>
    match nameOf p with
    | none => .error .record
    | some n => if n = name then .ok (some p) else findNamed nameOf name l

def EagleServer.queueName (s : EagleServer) (q : Ptr) : Option Name := (s.queueAt q).map QueueT.cName

def EagleServer.routeName (s : EagleServer) (r : Ptr) : Option Name := (s.routeAt r).map RouteT.cName

def EagleServer.channelName (s : EagleServer) (ch : Ptr) : Option Name :=
  (s.channelAt ch).map ChannelT.cName

def findQueueT (list : List Ptr) (name : Name) : ServerM (Option Ptr) := do
  Prog.lift (findNamed (← get).queueName name list)

def findRouteT (list : List Ptr) (name : Name) : ServerM (Option Ptr) := do
  Prog.lift (findNamed (← get).routeName name list)

def findChannelT (list : List Ptr) (name : Name) : ServerM (Option Ptr) := do
  Prog.lift (findNamed (← get).channelName name list)

/-- `list_rotate`: the last element comes to the front. -/
def listRotate (l : List Ptr) : List Ptr :=
  match l.getLast? with
  | none => []
  | some x => x :: l.dropLast

def createRouteT (name : Name) (flags : ℕ) : ServerM Ptr := do
  let r := (← get).fresh
  modify fun s => { s with
    routeAt := Function.update s.routeAt r
      (some ⟨name, flags, bitCheck flags 0, bitCheck flags 1, []⟩)
    fresh := r + 1 }
  pure r

def linkQueueRouteT (q r : Ptr) (key : Name) : ServerM Unit :=
  modifyQueue q fun x =>
    if r ∈ x.routes.values key then x else { x with routes := x.routes.add key r }

def unlinkQueueRouteT (q r : Ptr) (key : Name) : ServerM Unit :=
  modifyQueue q fun x => { x with routes := x.routes.remove key r }

def bindRouteT (r q : Ptr) (key : Name) : ServerM Unit := do
  if q ∈ (← getRoute r).keys.values key then pure ()
  else
    modifyRoute r fun x => { x with keys := x.keys.add key q }
    linkQueueRouteT q r key

/-- The destructor: the queues bound under each key forget the route. -/
def deleteRouteT (r : Ptr) : ServerM Unit := do
  let keys := (← getRoute r).keys
  keys.forM fun (key, queues) => queues.forM fun q => unlinkQueueRouteT q r key
  modify fun s => s.freeRoute r

/-- `list_delete_value(server->routes, route)`. -/
def listDeleteRoute (r : Ptr) : ServerM Bool := do
  if r ∈ (← get).routes then
    modify fun s => { s with routes := s.routes.erase r }
    deleteRouteT r
    pure true
  else pure false

def unbindRouteT (r q : Ptr) (key : Name) : ServerM Bool := do
  if key ∈ (← getRoute r).keys.keys then
    modifyRoute r fun x => { x with keys := x.keys.remove key q }
    unlinkQueueRouteT q r key
    let x ← getRoute r
    if x.autoDelete ∧ x.keys = [] then
      let _ ← listDeleteRoute r
    pure true
  else pure false

def renameRouteT (r : Ptr) (name : Name) : ServerM Unit :=
  modifyRoute r fun x => { x with name := name, flags := spill name x.flags }

/-- The queues that a push with a key reaches. -/
def RouteT.receivers (x : RouteT) (key : Name) : List Ptr :=
  if x.roundRobin then (listRotate (x.keys.values key)).head?.toList else x.keys.values key

/-- `get_queue_number_route_t`. -/
def RouteT.queueNumber (x : RouteT) : ℕ := (x.keys.map fun k => k.2.length).sum

end EagleMQ
