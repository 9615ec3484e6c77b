import NamedData.Forwarder.Expiry
import NamedData.Forwarder.IncomingData
import NamedData.Forwarder.IncomingInterest
import NamedData.Forwarder.IncomingNack

/-!
The pipeline of any incoming packet.
-/

namespace NamedData.Forwarder

def receive (fw : Forwarder) (now : Timestamp) (ingress : FaceEndpoint) :
    Packet → Except Fault Forwarder
  | .interest i => fw.receiveInterest now ingress i
  | .data d => fw.receiveData now ingress d
  | .nack n => fw.receiveNack now ingress n

end NamedData.Forwarder
