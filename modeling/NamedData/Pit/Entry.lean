import NamedData.Packet.Basic

/-!
A pending Interest: who asked for it, where it was sent, and whether Data has come back. There is
at most one record for each face on either side.
-/

namespace NamedData

/-- A face that asked for the Data, with the latest Interest it sent. -/
structure InRecord where
  face : FaceId
  endpoint : Nat
  nonce : Nonce
  renewed : Timestamp
  expiry : Timestamp
  interest : Interest
deriving DecidableEq

namespace InRecord

def peer (r : InRecord) : FaceEndpoint where
  face := r.face
  endpoint := r.endpoint

def isLive (r : InRecord) (now : Timestamp) : Bool :=
  now < r.expiry

end InRecord

/-- A face that the Interest was sent to, with what came back from it. -/
structure OutRecord where
  face : FaceId
  endpoint : Nat
  nonce : Nonce
  renewed : Timestamp
  expiry : Timestamp
  nack? : Option NackReason := none
deriving DecidableEq

/-- Whether the face may still answer: it has time left and has sent no Nack. -/
def OutRecord.isPending (r : OutRecord) (now : Timestamp) : Bool :=
  now ≤ r.expiry && r.nack?.isNone

/-- Which records already carry a nonce. -/
structure DuplicateNonce where
  inSame : Bool
  inOther : Bool
  outSame : Bool
  outOther : Bool
deriving DecidableEq

def DuplicateNonce.isNone (d : DuplicateNonce) : Bool :=
  !d.inSame && !d.inOther && !d.outSame && !d.outOther

/-- When an Interest was forwarded last, and how many retransmissions of it were, up to a limit. -/
structure Retransmission where
  lastForwarded : Option Timestamp := none
  count : Nat := 0
deriving DecidableEq

/-- An Interest on its way, with its records in the order in which their faces first appeared. -/
structure PitEntry where
  interest : Interest
  inRecords : List InRecord := []
  outRecords : List OutRecord := []
  satisfied : Bool := false
  /-- The freshness period of the Data that satisfied the entry. -/
  dataFreshness : Millis := 0
  retransmission : Retransmission := {}
  /-- The number of the timer that ends the entry. -/
  expiryTimer : Option Nat := none
deriving DecidableEq

namespace PitEntry

def name (e : PitEntry) : Name :=
  e.interest.name

def hasInRecords (e : PitEntry) : Bool :=
  !e.inRecords.isEmpty

def hasRecords (e : PitEntry) : Bool :=
  !e.inRecords.isEmpty || !e.outRecords.isEmpty

def inRecord? (e : PitEntry) (face : FaceId) : Option InRecord :=
  e.inRecords.find? fun r => r.face = face

def outRecord? (e : PitEntry) (face : FaceId) : Option OutRecord :=
  e.outRecords.find? fun r => r.face = face

def hasPendingOutRecords (e : PitEntry) (now : Timestamp) : Bool :=
  e.outRecords.any fun r => r.isPending now

/-- When the last of the waiting faces gives up, if any is waiting. -/
def lastInExpiry? (e : PitEntry) : Option Timestamp :=
  (e.inRecords.map InRecord.expiry).max?

/-- Replaces the record for which the test holds, or adds the record at the end. -/
def upsert {ρ : Type} (isOld : ρ → Bool) (record : ρ) : List ρ → List ρ
  | [] => [record]
  | r :: rest => if isOld r then record :: rest else r :: upsert isOld record rest

def recordIn (e : PitEntry) (ingress : FaceEndpoint) (interest : Interest) (now : Timestamp) :
    PitEntry :=
  let record : InRecord :=
    { face := ingress.face, endpoint := ingress.endpoint, nonce := interest.nonce, renewed := now
      expiry := now.adding interest.lifetime, interest := interest }
  { e with inRecords := upsert (fun r => r.face = ingress.face) record e.inRecords }

/-- Notes that the Interest was sent to a face, or sent again; an earlier Nack counts no more. -/
def recordOut (e : PitEntry) (egress : FaceEndpoint) (interest : Interest) (now : Timestamp) :
    PitEntry :=
  let record : OutRecord :=
    { face := egress.face, endpoint := egress.endpoint, nonce := interest.nonce, renewed := now
      expiry := now.adding interest.lifetime }
  { e with outRecords := upsert (fun r => r.face = egress.face) record e.outRecords }

def deleteIn (e : PitEntry) (face : FaceId) : PitEntry :=
  { e with inRecords := e.inRecords.eraseP fun r => r.face = face }

def deleteOut (e : PitEntry) (face : FaceId) : PitEntry :=
  { e with outRecords := e.outRecords.eraseP fun r => r.face = face }

def clearIn (e : PitEntry) : PitEntry :=
  { e with inRecords := [] }

def mentions (e : PitEntry) (face : FaceId) : Bool :=
  e.inRecords.any (fun r => r.face = face) || e.outRecords.any (fun r => r.face = face)

def forgetFace (e : PitEntry) (face : FaceId) : PitEntry :=
  { e with
    inRecords := e.inRecords.filter fun r => r.face ≠ face
    outRecords := e.outRecords.filter fun r => r.face ≠ face }

/-- Notes a Nack that came back from a face, if the Interest was sent there. -/
def recordNack (e : PitEntry) (face : FaceId) (reason : NackReason) : PitEntry :=
  { e with
    outRecords := e.outRecords.map fun r =>
      if r.face = face then { r with nack? := some reason } else r }

/-- Which records carry the nonce, seen from a face. -/
def findNonce (e : PitEntry) (nonce : Nonce) (face : FaceId) : DuplicateNonce where
  inSame := e.inRecords.any fun r => r.nonce = nonce && r.face = face
  inOther := e.inRecords.any fun r => r.nonce = nonce && r.face ≠ face
  outSame := e.outRecords.any fun r => r.nonce = nonce && r.face = face
  outOther := e.outRecords.any fun r => r.nonce = nonce && r.face ≠ face

end PitEntry

end NamedData
