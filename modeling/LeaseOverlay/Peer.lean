import LeaseOverlay.PeerId

namespace LeaseOverlay

structure Route where
  peer : PeerId
  addresses : List String := []
  deriving DecidableEq

structure Descriptor where
  peer : PeerId
  name : String := ""
  addresses : List String := []
  deriving DecidableEq

def Descriptor.route (d : Descriptor) : Route := ⟨d.peer, d.addresses⟩

inductive Destination
  | address (text : String)
  | peer (id : PeerId)
  deriving DecidableEq

def Destination.text : Destination → String
  | address a => a
  | peer p => "peer:" ++ p.short

end LeaseOverlay
