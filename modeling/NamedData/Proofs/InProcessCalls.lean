import NamedData.Face.InProcess
import NamedData.Proofs.Histories

/-!
What comes through a face to an application in the same process. The node sends, the application
takes one packet or all there are, and either may drop its half, in any order: what went in comes
out once and in order, and as long as the sending half is there or anything is queued, nobody is
told that the face is disconnected. The same happens in a queue whose halves know of each other only
by the number of those that hold it.
-/

namespace NamedData

/-- A call of one of the halves. -/
inductive InProcessCall where
  | send (packet : Packet) (endpoint : Nat)
  | receive
  | drain
  | dropSender
  | dropReceiver

/-- Whether the call is one of the sending half. -/
def InProcessCall.isSenders : InProcessCall → Bool
  | send .. => true
  | dropSender => true
  | _ => false

/-- What a call returns; a half that was dropped cannot be called any more. -/
inductive InProcessReply where
  | sent (result : Except FaceError Unit)
  | received (result : Except FaceError (Option (Packet × Nat)))
  | drained (packets : List (Packet × Nat))
  | dropped
  | absent

/-- What the two halves of a face do, and which of them are there. -/
structure Halves (σ : Type) where
  hasSender : σ → Bool
  hasReceiver : σ → Bool
  send : σ → Packet → Nat → Except FaceError σ
  receive : σ → Except FaceError (Option (Packet × Nat) × σ)
  drain : σ → List (Packet × Nat) × σ
  dropSender : σ → σ
  dropReceiver : σ → σ

namespace Halves

variable {σ : Type}

/-- Whether the half that a call belongs to is there. -/
def holds (h : Halves σ) (s : σ) (k : InProcessCall) : Bool :=
  if k.isSenders then h.hasSender s else h.hasReceiver s

/-- Makes a call of a half that is there. -/
def perform (h : Halves σ) (s : σ) : InProcessCall → InProcessReply × σ
  | .send packet endpoint =>
    match h.send s packet endpoint with
    | .ok s => (.sent (.ok ()), s)
    | .error e => (.sent (.error e), s)
  | .receive =>
    match h.receive s with
    | .ok (packet?, s) => (.received (.ok packet?), s)
    | .error e => (.received (.error e), s)
  | .drain =>
    let (packets, s) := h.drain s
    (.drained packets, s)
  | .dropSender => (.dropped, h.dropSender s)
  | .dropReceiver => (.dropped, h.dropReceiver s)

def call (h : Halves σ) (s : σ) (k : InProcessCall) : InProcessReply × σ :=
  if h.holds s k then h.perform s k else (.absent, s)

end Halves

/-- Calls with their replies, the latest first. -/
abbrev InProcessHistory := List (InProcessCall × InProcessReply)

namespace InProcessHistory

/-- The packet that a call handed over, if it was taken. -/
def handedOver : InProcessCall → InProcessReply → List (Packet × Nat)
  | .send packet endpoint, .sent (.ok _) => [(packet, endpoint)]
  | _, _ => []

/-- The packets that came out with a reply. -/
def broughtOut : InProcessReply → List (Packet × Nat)
  | .received (.ok packet?) => packet?.toList
  | .drained packets => packets
  | _ => []

/-- The packets that were taken, the oldest first. -/
def accepted (history : InProcessHistory) : List (Packet × Nat) :=
  history.reverse.flatMap fun step => handedOver step.1 step.2

/-- The packets that came out, the oldest first. -/
def received (history : InProcessHistory) : List (Packet × Nat) :=
  history.reverse.flatMap fun step => broughtOut step.2

def SenderDropped (history : InProcessHistory) : Prop :=
  .dropSender ∈ history.map Prod.fst

def ReceiverDropped (history : InProcessHistory) : Prop :=
  .dropReceiver ∈ history.map Prod.fst

variable {history : InProcessHistory} {k : InProcessCall} {reply : InProcessReply}

theorem accepted_cons :
    accepted ((k, reply) :: history) = accepted history ++ handedOver k reply := by
  simp [accepted]

theorem received_cons :
    received ((k, reply) :: history) = received history ++ broughtOut reply := by
  simp [received]

theorem senderDropped_cons :
    SenderDropped ((k, reply) :: history) ↔ .dropSender = k ∨ SenderDropped history :=
  List.mem_cons

theorem receiverDropped_cons :
    ReceiverDropped ((k, reply) :: history) ↔ .dropReceiver = k ∨ ReceiverDropped history :=
  List.mem_cons

end InProcessHistory

open InProcessHistory

namespace InProcessFace

def halves : Halves InProcessFace where
  hasSender := hasSender
  hasReceiver := hasReceiver
  send := send
  receive := receive
  drain := drain
  dropSender := dropSender
  dropReceiver := dropReceiver

variable {f f' : InProcessFace} {history : InProcessHistory} {k : InProcessCall}
  {reply : InProcessReply} {packet : Packet} {endpoint : Nat}

/-! ### One call -/

/-- What a call does: a packet goes in at one end or packets come out at the other, a half goes, or
nothing happens. -/
inductive Effect (f : InProcessFace) : InProcessCall → InProcessReply → InProcessFace → Prop where
  | taken {packet : Packet} {endpoint : Nat} (hsender : f.hasSender = true)
      (hreceiver : f.hasReceiver = true) : Effect f (.send packet endpoint) (.sent (.ok ()))
        { f with queue := f.queue ++ [(packet, endpoint)] }
  | refused {packet : Packet} {endpoint : Nat} (hsender : f.hasSender = true)
      (hreceiver : f.hasReceiver = false) :
      Effect f (.send packet endpoint) (.sent (.error .disconnected)) f
  | next {p : Packet × Nat} {later : List (Packet × Nat)} (hreceiver : f.hasReceiver = true)
      (hqueue : f.queue = p :: later) :
      Effect f .receive (.received (.ok (some p))) { f with queue := later }
  | waits (hreceiver : f.hasReceiver = true) (hqueue : f.queue = [])
      (hsender : f.hasSender = true) : Effect f .receive (.received (.ok none)) f
  | ends (hreceiver : f.hasReceiver = true) (hqueue : f.queue = [])
      (hsender : f.hasSender = false) :
      Effect f .receive (.received (.error .disconnected)) f
  | drained (hreceiver : f.hasReceiver = true) :
      Effect f .drain (.drained f.queue) { f with queue := [] }
  | senderGoes (hsender : f.hasSender = true) : Effect f .dropSender .dropped f.dropSender
  | receiverGoes (hreceiver : f.hasReceiver = true) : Effect f .dropReceiver .dropped f.dropReceiver
  | absent {k : InProcessCall} (hgone : halves.holds f k = false) : Effect f k .absent f

theorem call_absent (h : halves.holds f k = false) : halves.call f k = (.absent, f) := by
  rw [Halves.call, h, if_neg Bool.false_ne_true]

theorem call_present (h : halves.holds f k = true) : halves.call f k = halves.perform f k := by
  rw [Halves.call, h, if_pos rfl]

theorem call_effect (f : InProcessFace) (k : InProcessCall) :
    f.Effect k (halves.call f k).1 (halves.call f k).2 := by
  cases hholds : halves.holds f k with
  | false =>
      rw [call_absent hholds]
      exact .absent hholds
  | true =>
      rw [call_present hholds]
      cases k with
      | send packet endpoint =>
          cases hreceiver : f.hasReceiver with
          | true =>
              have hsend : f.send packet endpoint =
                  .ok { f with queue := f.queue ++ [(packet, endpoint)] } := if_pos hreceiver
              simp only [Halves.perform, halves, hsend]
              exact .taken hholds hreceiver
          | false =>
              have hsend : f.send packet endpoint = .error .disconnected :=
                if_neg (by simp [hreceiver])
              simp only [Halves.perform, halves, hsend]
              exact .refused hholds hreceiver
      | receive =>
          cases hqueue : f.queue with
          | cons p later =>
              simp only [Halves.perform, halves, receive, hqueue]
              exact .next hholds hqueue
          | nil =>
              cases hsender : f.hasSender with
              | true =>
                  simp only [Halves.perform, halves, receive, hqueue, hsender, if_true]
                  exact .waits hholds hqueue hsender
              | false =>
                  simp only [Halves.perform, halves, receive, hqueue, hsender,
                    if_neg Bool.false_ne_true]
                  exact .ends hholds hqueue hsender
      | drain => exact .drained hholds
      | dropSender => exact .senderGoes hholds
      | dropReceiver => exact .receiverGoes hholds

/-- Nothing is lost in a call, and nothing comes out twice. -/
theorem Effect.queue (h : f.Effect k reply f') :
    broughtOut reply ++ f'.queue = f.queue ++ handedOver k reply := by
  cases h with
  | taken _ _ => rfl
  | next _ hqueue => simp [broughtOut, handedOver, hqueue]
  | absent _ => cases k <;> simp [broughtOut, handedOver]
  | _ => simp [broughtOut, handedOver, dropSender, dropReceiver]

theorem Effect.hasSender (h : f.Effect k reply f') :
    f'.hasSender = true ↔ .dropSender ≠ k ∧ f.hasSender = true := by
  cases h with
  | senderGoes _ => simp [dropSender]
  | absent hgone => cases k <;> simp_all [Halves.holds, InProcessCall.isSenders, halves]
  | _ => simp [dropReceiver]

theorem Effect.hasReceiver (h : f.Effect k reply f') :
    f'.hasReceiver = true ↔ .dropReceiver ≠ k ∧ f.hasReceiver = true := by
  cases h with
  | receiverGoes _ => simp [dropReceiver]
  | absent hgone => cases k <;> simp_all [Halves.holds, InProcessCall.isSenders, halves]
  | _ => simp [dropSender]

/-! ### What a call is told -/

/-- A packet is taken as long as both halves are there, and refused by a face without a receiver,
which stays as it is. -/
theorem Effect.send_iff (h : f.Effect (.send packet endpoint) reply f') :
    (reply = .sent (.ok ()) ↔ f.hasSender = true ∧ f.hasReceiver = true) ∧
      (reply = .sent (.error .disconnected) ↔ f.hasSender = true ∧ f.hasReceiver = false) ∧
      (reply = .sent (.error .disconnected) → f' = f) := by
  cases h with
  | taken hsender hreceiver => simp [hsender, hreceiver]
  | refused hsender hreceiver => simp [hsender, hreceiver]
  | absent hgone =>
      have hsender : f.hasSender = false := hgone
      simp [hsender]

/-- A receiver gets the packet that has been queued longest; if there is none, it waits for the
sender. -/
theorem Effect.receive_iff (h : f.Effect .receive reply f') :
    (∀ p, reply = .received (.ok (some p)) ↔
        f.hasReceiver = true ∧ ∃ later, f.queue = p :: later) ∧
      (reply = .received (.ok none) ↔
        f.hasReceiver = true ∧ f.hasSender = true ∧ f.queue = []) ∧
      (reply = .received (.error .disconnected) ↔
        f.hasReceiver = true ∧ f.hasSender = false ∧ f.queue = []) := by
  cases h with
  | next hreceiver hqueue => simp [hreceiver, hqueue]
  | waits hreceiver hqueue hsender => simp [hreceiver, hqueue, hsender]
  | ends hreceiver hqueue hsender => simp [hreceiver, hqueue, hsender]
  | absent hgone =>
      have hreceiver : f.hasReceiver = false := hgone
      simp [hreceiver]

theorem Effect.drain_iff (h : f.Effect .drain reply f') (packets : List (Packet × Nat)) :
    reply = .drained packets ↔ f.hasReceiver = true ∧ f.queue = packets := by
  cases h with
  | drained hreceiver => simp [hreceiver]
  | absent hgone =>
      have hreceiver : f.hasReceiver = false := hgone
      simp [hreceiver]

/-! ### Any calls -/

/-- What a face keeps to along a history. -/
structure Accounts (f : InProcessFace) (history : InProcessHistory) : Prop where
  lossless : received history ++ f.queue = accepted history
  sender : f.hasSender = true ↔ ¬ SenderDropped history
  receiver : f.hasReceiver = true ↔ ¬ ReceiverDropped history

theorem accounts_new : Accounts {} [] where
  lossless := rfl
  sender := by simp [SenderDropped]
  receiver := by simp [ReceiverDropped]

theorem Accounts.step (h : f.Accounts history) (heffect : f.Effect k reply f') :
    f'.Accounts ((k, reply) :: history) where
  lossless := by
    calc received ((k, reply) :: history) ++ f'.queue
        = received history ++ (broughtOut reply ++ f'.queue) := by
          rw [received_cons, List.append_assoc]
      _ = (received history ++ f.queue) ++ handedOver k reply := by
          rw [heffect.queue, List.append_assoc]
      _ = accepted ((k, reply) :: history) := by rw [h.lossless, accepted_cons]
  sender := by rw [heffect.hasSender, h.sender, senderDropped_cons, not_or]
  receiver := by rw [heffect.hasReceiver, h.receiver, receiverDropped_cons, not_or]

/-- The face after a history: what came through it, and what each call would be told now. -/
structure Follows (f : InProcessFace) (history : InProcessHistory) : Prop where
  /-- What came out, followed by what is still queued, is what was taken. -/
  lossless : received history ++ f.queue = accepted history
  /-- A packet is refused exactly if the receiving half was dropped, and then nothing is queued. -/
  refused_iff : ∀ packet endpoint,
    (halves.call f (.send packet endpoint)).1 = .sent (.error .disconnected) ↔
      ¬ SenderDropped history ∧ ReceiverDropped history
  refused_same : ∀ packet endpoint,
    (halves.call f (.send packet endpoint)).1 = .sent (.error .disconnected) →
      (halves.call f (.send packet endpoint)).2 = f
  taken_iff : ∀ packet endpoint, (halves.call f (.send packet endpoint)).1 = .sent (.ok ()) ↔
    ¬ SenderDropped history ∧ ¬ ReceiverDropped history
  /-- What comes out next is the oldest packet that has not come out yet. -/
  next_iff : ∀ p, (halves.call f .receive).1 = .received (.ok (some p)) ↔
    ¬ ReceiverDropped history ∧ ∃ later, accepted history = received history ++ p :: later
  /-- The receiver waits if everything came out and the sending half is there. -/
  waits_iff : (halves.call f .receive).1 = .received (.ok none) ↔
    ¬ ReceiverDropped history ∧ ¬ SenderDropped history ∧ received history = accepted history
  /-- The receiver is told that the face is disconnected exactly if the sending half was dropped and
  nothing is queued, so that everything came out before. -/
  ends_iff : (halves.call f .receive).1 = .received (.error .disconnected) ↔
    ¬ ReceiverDropped history ∧ SenderDropped history ∧ f.queue = []
  ends_late : (halves.call f .receive).1 = .received (.error .disconnected) →
    received history = accepted history
  /-- Draining brings out everything that has not come out yet. -/
  drained_iff : ∀ packets, (halves.call f .drain).1 = .drained packets ↔
    ¬ ReceiverDropped history ∧ accepted history = received history ++ packets

/-- The queue is what was taken and has not come out. -/
theorem Accounts.queue_eq_iff (h : f.Accounts history) (packets : List (Packet × Nat)) :
    f.queue = packets ↔ accepted history = received history ++ packets := by
  rw [← h.lossless, List.append_cancel_left_eq]

theorem Accounts.senderDropped (h : f.Accounts history) :
    SenderDropped history ↔ f.hasSender = false := by
  rw [← Bool.not_eq_true, h.sender, Classical.not_not]

theorem Accounts.receiverDropped (h : f.Accounts history) :
    ReceiverDropped history ↔ f.hasReceiver = false := by
  rw [← Bool.not_eq_true, h.receiver, Classical.not_not]

theorem Accounts.follows (h : f.Accounts history) : f.Follows history where
  lossless := h.lossless
  refused_iff packet endpoint := by
    rw [(f.call_effect (.send packet endpoint)).send_iff.2.1, h.sender, ← h.receiverDropped]
  refused_same packet endpoint := (f.call_effect (.send packet endpoint)).send_iff.2.2
  taken_iff packet endpoint := by
    rw [(f.call_effect (.send packet endpoint)).send_iff.1, h.sender, h.receiver]
  next_iff p := by
    simp only [(f.call_effect .receive).receive_iff.1, h.receiver, h.queue_eq_iff]
  waits_iff := by
    rw [(f.call_effect .receive).receive_iff.2.1, h.receiver, h.sender, h.queue_eq_iff,
      List.append_nil, eq_comm (a := received history)]
  ends_iff := by
    rw [(f.call_effect .receive).receive_iff.2.2, h.receiver, ← h.senderDropped]
  ends_late hended := by
    have hempty := ((f.call_effect .receive).receive_iff.2.2.mp hended).2.2
    rw [h.queue_eq_iff, List.append_nil] at hempty
    exact hempty.symm
  drained_iff packets := by
    rw [(f.call_effect .drain).drain_iff, h.receiver, h.queue_eq_iff]

end InProcessFace

/-! ### Halves that share a queue -/

/-- A queue with the number of the halves that hold it, and which halves these are. -/
structure SharedQueue where
  queue : List (Packet × Nat) := []
  holders : Nat := 2
  hasSender : Bool := true
  hasReceiver : Bool := true

namespace SharedQueue

/-- A half that holds the queue alone has no other half any more. -/
def heldAlone (q : SharedQueue) : Bool :=
  q.holders ≤ 1

def send (q : SharedQueue) (packet : Packet) (endpoint : Nat) : Except FaceError SharedQueue :=
  if q.heldAlone then .error .disconnected
  else .ok { q with queue := q.queue ++ [(packet, endpoint)] }

def receive (q : SharedQueue) : Except FaceError (Option (Packet × Nat) × SharedQueue) :=
  let packet? := q.queue.head?
  if packet?.isNone && q.heldAlone then .error .disconnected
  else .ok (packet?, { q with queue := q.queue.tail })

def drain (q : SharedQueue) : List (Packet × Nat) × SharedQueue :=
  (q.queue, { q with queue := [] })

def dropSender (q : SharedQueue) : SharedQueue :=
  { q with holders := q.holders - 1, hasSender := false }

def dropReceiver (q : SharedQueue) : SharedQueue :=
  { q with holders := q.holders - 1, hasReceiver := false }

def halves : Halves SharedQueue where
  hasSender := hasSender
  hasReceiver := hasReceiver
  send := send
  receive := receive
  drain := drain
  dropSender := dropSender
  dropReceiver := dropReceiver

end SharedQueue

/-- The face as a shared queue: each half that is there holds it. -/
def InProcessFace.shared (f : InProcessFace) : SharedQueue where
  queue := f.queue
  holders := f.hasSender.toNat + f.hasReceiver.toNat
  hasSender := f.hasSender
  hasReceiver := f.hasReceiver

/-- By the number of holders a half sees whether the other one is there. -/
theorem SharedQueue.call_shared (f : InProcessFace) (k : InProcessCall) :
    (halves.call f.shared k).1 = (InProcessFace.halves.call f k).1 ∧
      (halves.call f.shared k).2 = (InProcessFace.halves.call f k).2.shared := by
  obtain ⟨queue, sender, receiver⟩ := f
  cases k with
  | receive => cases queue <;> cases sender <;> cases receiver <;> exact ⟨rfl, rfl⟩
  | _ => cases sender <;> cases receiver <;> exact ⟨rfl, rfl⟩

/-- After any calls what came out of the face, followed by what is still queued, is what was taken,
in order and with its endpoints. A packet is refused exactly if the receiving half was dropped, and
then it is not queued; the receiver is told that the face is disconnected exactly if the sending
half was dropped and nothing is queued any more. Halves that only count how many hold their queue
give the same replies and have the same queue. -/
theorem in_process_face_is_lossless (calls : List InProcessCall) :
    let (history, f) := recordCalls InProcessFace.halves.call ({} : InProcessFace) calls
    let (history', q) := recordCalls SharedQueue.halves.call ({} : SharedQueue) calls
    history.map Prod.fst = calls ∧ f.Follows history ∧ history' = history ∧ q = f.shared := by
  have hshared : (recordCalls SharedQueue.halves.call ({} : SharedQueue) calls).1 =
      (recordCalls InProcessFace.halves.call ({} : InProcessFace) calls).1 ∧
      (recordCalls SharedQueue.halves.call ({} : SharedQueue) calls).2 =
        (recordCalls InProcessFace.halves.call ({} : InProcessFace) calls).2.shared :=
    recordCalls_simulation (R := fun (q : SharedQueue) (f : InProcessFace) => q = f.shared)
      (show ({} : SharedQueue) = ({} : InProcessFace).shared from rfl)
      (fun _ f k hq => hq ▸ SharedQueue.call_shared f k) calls
  have haccounts : (recordCalls InProcessFace.halves.call ({} : InProcessFace) calls).2.Accounts
      (recordCalls InProcessFace.halves.call ({} : InProcessFace) calls).1 :=
    recordCalls_induction (P := fun history (f : InProcessFace) => f.Accounts history)
      InProcessFace.accounts_new
      (fun _ f k h => h.step (f.call_effect k)) calls
  exact ⟨map_fst_recordCalls calls, haccounts.follows, hshared.1, hshared.2⟩

end NamedData
