import NamedData.Forwarder.Basic

/-!
The pipeline of incoming Nacks. A Nack counts only if it comes from a face with a single peer and
hands back what was last sent to that face; it is noted in the entry and left to the strategy.
-/

namespace NamedData.Forwarder

def nackArrival (e : PitEntry) (face : FaceId) (nack : Nack) : NackArrival :=
  match e.outRecord? face with
  | none => .noOutRecord
  | some record =>
    if record.nonce = nack.interest.nonce then .accepted
    else .nonceMismatch nack.interest.nonce record.nonce

/-- Notes a Nack in the entry, which ends when timers are run next unless another face may still
answer. -/
def recordNack (face : FaceId) (reason : NackReason) (f : Focus) : Focus :=
  let f := f.onEntry fun e => e.recordNack face reason
  if f.entry.hasPendingOutRecords f.node.now then f else f.setExpiry 0

def receiveNack (fw : Forwarder) (now : Timestamp) (ingress : FaceEndpoint) (nack : Nack) :
    Except Fault Forwarder := do
  let fw := fw.tick now
  let name := nack.interest.name
  match fw.node.faces.info? ingress.face with
  | none => .ok (fw.say (.incomingNack ingress.face name nack.reason .unknownFace))
  | some info =>
    let fw := fw.onNode fun n => n.count fun c => { c with inNacks := c.inNacks + 1 }
    let nack := { nack with incomingFace := some ingress.face }
    if info.isPointToPoint then
      match ← fw.node.tables.findPending nack.interest with
      | none => .ok (fw.say (.incomingNack ingress.face name nack.reason .noEntry))
      | some token =>
        fw.atEntry token fun f =>
          let arrival := nackArrival f.entry ingress.face nack
          let f := f.say (.incomingNack ingress.face name nack.reason arrival)
          match arrival with
          | .accepted =>
            fw.consult (recordNack ingress.face nack.reason f)
              fun s f => s.afterNack nack ingress f
          | _ => .ok f
    else .ok (fw.say (.incomingNack ingress.face name nack.reason (.wrongLink info.link)))

end NamedData.Forwarder
