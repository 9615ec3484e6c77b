import NamedData.Packet.Basic

/-!
Which faces an Interest may be sent out of. Names under `/localhost` stay on the host, names under
`/localhop` go one hop off it, and nothing goes back out of the face it came from unless the link is
ad hoc.
-/

namespace NamedData.Scope

/-- Whether sending the Interest from one face to the other would carry its name too far. -/
def violates (ingress : FaceInfo) (interest : Interest) (egress : FaceInfo) : Bool :=
  !egress.isLocal
    && (interest.name.isLocalhost || (interest.name.isLocalhop && !ingress.isLocal))

/-- Whether the Interest may be forwarded from one face to the other. -/
def isEligible (ingress : FaceInfo) (interest : Interest) (egress : FaceInfo) : Bool :=
  (egress.face ≠ ingress.face || egress.isAdHoc) && !violates ingress interest egress

end NamedData.Scope
