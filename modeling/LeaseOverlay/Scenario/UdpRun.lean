import LeaseOverlay.Udp

namespace LeaseOverlay.Scenario

inductive UdpStep
  | learn (r : Route)
  | send (dest : Destination) (m : Message)

structure UdpReport where
  sent : Option (Except SendError (Endpoint × List UInt8))
  routes : Nat

def runUdp (link : Link) : Udp → List UdpStep → List UdpReport
  | _, [] => []
  | u, .learn r :: ss => ⟨none, (u.learn r).routes.size⟩ :: runUdp link (u.learn r) ss
  | u, .send dest m :: ss => ⟨some (u.send link dest m), u.routes.size⟩ :: runUdp link u ss

structure ArrivalReport where
  message : Option Message
  routes : Nat

/-- Sends datagrams to a transport. There is no report if the link loses one of them. -/
def deliver (link : Link) (source receiver : Endpoint) :
    Udp → List (List UInt8) → Option (Udp × List ArrivalReport)
  | u, [] => some (u, [])
  | u, bytes :: rest =>
    if link.takes receiver bytes.length then
      let (u, inbound) := u.receive source bytes
      (deliver link source receiver u rest).map fun r =>
        (r.1, ⟨inbound.map (·.message), u.routes.size⟩ :: r.2)
    else none

end LeaseOverlay.Scenario
