import LeaseOverlay.Event
import LeaseOverlay.Time
import LeaseOverlay.Wire.Message

namespace LeaseOverlay

inductive SendError
  | noRoute (dest : Destination)
  | badAddress (address : String)
  | unreachable (dest : Destination) (reason : String)
  | encode (reason : String)
  | closed
  deriving DecidableEq

def SendError.message : SendError → String
  | noRoute dest => "no route to " ++ dest.text
  | badAddress address => "invalid address: " ++ address
  | unreachable dest reason => dest.text ++ " unreachable: " ++ reason
  | encode reason => "failed to encode message: " ++ reason
  | closed => "transport closed"

structure Surroundings where
  fault : Destination → Option SendError := fun _ => none
  groupUp : Bool := true
  routingReady : Bool := true
  seedsAnswer : Bool := true

inductive Effect
  | sent (moment : Time) (dest : Destination) (error : Option SendError) (m : Message)
  | group (taken : Bool) (m : Message)
  | route (r : Route)
  | event (moment : Time) (e : Event)
  deriving DecidableEq

end LeaseOverlay
