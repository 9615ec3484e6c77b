import NamedData.Proofs.HostScope
import NamedData.Proofs.IntactLinks
import NamedData.Proofs.References

/-!
A link that refuses packets disturbs nobody. Two runs with the same calls whose links refuse
different packets hand the same packets to the same faces and leave the same tables, content store,
memories, timers and counts; only the faces reported as disconnected differ. They are the faces that
still exist and had a packet refused since the report was taken last.
-/

namespace NamedData

/-! ### What is reported of packets -/

/-- Whether a link of the face refused one of the packets. -/
def Refused (sent : List Transmission) (face : FaceId) : Prop :=
  ∃ t ∈ sent, t.peer.face = face ∧ t.isTaken = false

/-- The reported faces after some packets: those reported before, and then each face that refused a
packet, once. -/
def reportsAfter (before : List FaceId) (sent : List Transmission) : List FaceId :=
  sent.foldl (fun faces t =>
    if t.isTaken then faces
    else if t.peer.face ∈ faces then faces else faces ++ [t.peer.face]) before

theorem reportsAfter_concat (before : List FaceId) (sent : List Transmission) (t : Transmission) :
    reportsAfter before (sent ++ [t]) =
      if t.isTaken then reportsAfter before sent
      else if t.peer.face ∈ reportsAfter before sent then reportsAfter before sent
      else reportsAfter before sent ++ [t.peer.face] := by
  rw [reportsAfter, List.foldl_append]
  rfl

theorem mem_reportsAfter {before : List FaceId} {sent : List Transmission} {face : FaceId} :
    face ∈ reportsAfter before sent ↔ face ∈ before ∨ Refused sent face := by
  induction sent using List.reverseRecOn with
  | nil => simp [reportsAfter, Refused]
  | append_singleton sent t ih =>
      have hrefused : Refused (sent ++ [t]) face ↔
          Refused sent face ∨ t.peer.face = face ∧ t.isTaken = false := by
        simp [Refused, or_and_right, exists_or]
      rw [reportsAfter_concat, hrefused, ← or_assoc, ← ih]
      cases t.isTaken with
      | true => simp
      | false =>
          simp only [Bool.false_eq_true, ↓reduceIte, and_true]
          split
          next hknown =>
            constructor
            · exact .inl
            · rintro (hold | rfl)
              · exact hold
              · exact hknown
          next => simp [eq_comm]

theorem nodup_reportsAfter {before : List FaceId} (h : before.Nodup) (sent : List Transmission) :
    (reportsAfter before sent).Nodup := by
  induction sent using List.reverseRecOn with
  | nil => exact h
  | append_singleton sent t ih =>
      rw [reportsAfter_concat]
      split
      · exact ih
      · split
        · exact ih
        next hnew =>
          rw [← List.concat_eq_append]
          exact ih.concat hnew

theorem Node.noteDisconnected_eq (n : Node) (face : FaceId) :
    n.noteDisconnected face = { n.say (.faceDisconnected face) with
      disconnected :=
        if face ∈ n.disconnected then n.disconnected else n.disconnected ++ [face] } := by
  have hsaid : (n.say (.faceDisconnected face)).disconnected = n.disconnected := rfl
  rw [Node.noteDisconnected]
  simp only [hsaid]
  split <;> rfl

namespace LinkView

/-- The view in which all that a node sent comes after what another one had sent. -/
def after (n : Node) : LinkView where
  faces t := { t with latest := n.faces.latest }
  sent new := n.journal.sent ++ new
  reported new := reportsAfter n.disconnected new
  notices := id

theorem after_transmit (n m : Node) (peer : FaceEndpoint) (packet : Packet) :
    (after n).node (m.transmit peer packet) = ((after n).node m).transmit peer packet := by
  cases hface : m.faces.find? peer.face with
  | none =>
      have hface' : ((after n).node m).faces.find? peer.face = none := hface
      rw [Node.transmit_of_find?_none hface, Node.transmit_of_find?_none hface']
  | some f =>
      have hface' : ((after n).node m).faces.find? peer.face = some f := hface
      have hsent (isTaken : Bool) := List.append_assoc n.journal.sent m.journal.sent
        [⟨peer, packet, isTaken⟩]
      rw [Node.transmit_of_find? hface, Node.transmit_of_find? hface']
      split
      · have hreports := reportsAfter_concat n.disconnected m.journal.sent ⟨peer, packet, true⟩
        simp only [Node.handed, node, after, hreports, ← hsent]
        rfl
      · have hreports := reportsAfter_concat n.disconnected m.journal.sent ⟨peer, packet, false⟩
        rw [Node.noteDisconnected_eq, Node.noteDisconnected_eq]
        simp only [Node.handed, node, after, Node.say, hreports, ← hsent]
        rfl

theorem after_lawful (n : Node) : (after n).Lawful where
  info? _ := rfl
  notices _ _ _ := rfl
  transmit := after_transmit n

end LinkView

namespace Forwarder

variable {fw fw' : Forwarder} {operation : Operation}

/-- An operation that is not about faces as such reports the faces whose links refused what it
sends. -/
theorem reports_perform (hbuiltIn : fw.BuiltInOnly) (hother : operation.concernsFaces = false)
    (hperform : fw.perform operation = .ok fw') :
    ∃ new, fw'.node.journal.sent = fw.node.journal.sent ++ new ∧
      fw'.node.disconnected = reportsAfter fw.node.disconnected new ∧
      fw'.node.faces.latest = fw.node.faces.latest := by
  let fresh := fw.onNode fun n => { n with
    disconnected := []
    journal := { n.journal with sent := [] } }
  have hfresh : (LinkView.after fw.node).forwarder fresh = fw := by
    have hsent : fw.node.journal.sent ++ [] = fw.node.journal.sent := List.append_nil _
    exact congrArg (fun sent => { fw with
      node := { fw.node with journal := { fw.node.journal with sent } } }) hsent
  have hlisted : fresh.BuiltInOnly := hbuiltIn
  have hlawful := LinkView.after_lawful fw.node
  have hview := hlawful.perform (hlawful.acceptsAll hlisted) hother
  rw [hfresh, hperform] at hview
  obtain ⟨last, _, rfl⟩ := map_eq_ok.mp hview
  exact ⟨last.node.journal.sent, rfl, rfl, rfl⟩

/-- An operation that is not about faces as such brings no face. -/
theorem contains_perform (h : fw.Valid) (hother : operation.concernsFaces = false)
    (hperform : fw.perform operation = .ok fw') {face : FaceId}
    (hknown : fw'.node.faces.contains face = true) : fw.node.faces.contains face = true := by
  cases htimed : operation.reading? with
  | some now =>
      obtain ⟨n, hbegun, hdeeds⟩ := deeds_perform h hperform
      have hinfo := hdeeds.preserve
        (P := fun k => k.faces.contains face = true → n.faces.contains face = true)
        (fun k k' hdeed hk hface => by
          rw [FaceTable.contains_eq] at hface
          obtain ⟨info, hinfo⟩ := Option.isSome_iff_exists.mp hface
          exact hk (FaceTable.contains_of_info? (hdeed.info?_of_timed htimed hinfo)))
        id
      rcases hbegun with rfl | ⟨_, _, rfl⟩
      · exact hinfo hknown
      · exact hinfo hknown
  | none =>
      cases operation with
      | addFace takes scope link => cases hother
      | hangUp face => cases hother
      | takeDisconnected => cases hother
      | setStrategy stem id =>
          cases hperform
          rw [Forwarder.setStrategy] at hknown
          split at hknown
          · exact hknown
          · exact hknown
      | removeFace now face => cases htimed
      | addRoute now stem face cost => cases htimed
      | receive now ingress packet => cases htimed
      | dropInterest now egress interest => cases htimed
      | runTimers now => cases htimed
      | _ =>
          cases hperform
          exact hknown

/-- Removing a face takes away this face and its report. -/
theorem removeFace_links {now : Timestamp} {face : FaceId} {isRemoved : Bool}
    (hremove : fw.removeFace now face = .ok (isRemoved, fw')) :
    fw'.node.journal.sent = fw.node.journal.sent ∧
      ((fw'.node.faces = fw.node.faces ∧ fw'.node.disconnected = fw.node.disconnected) ∨
        fw.node.faces.remove face = (true, fw'.node.faces) ∧
        fw'.node.disconnected = fw.node.disconnected.filter (· ≠ face)) := by
  simp only [Forwarder.removeFace] at hremove
  split at hremove
  · cases hremove
    exact ⟨rfl, .inl ⟨rfl, rfl⟩⟩
  next faces htable =>
    obtain ⟨last, hfold, hresult⟩ := bind_eq_ok.mp hremove
    cases hresult
    have hend := foldlM_preserve
      (P := fun k : Forwarder => k.node.journal.sent = fw.node.journal.sent ∧
        k.node.faces = faces ∧ k.node.disconnected = fw.node.disconnected)
      (fun k token k' hstep hk => by
        obtain ⟨e, f, _, hwork, rfl⟩ := atEntry_eq_ok.mp hstep
        cases hwork
        rcases forgetFace_cases face ⟨k.node, token, e⟩ with ⟨_, hsame⟩ | ⟨_, hsame | hsame⟩
        · rw [hsame]
          exact hk
        · rw [hsame]
          exact hk
        · rw [hsame]
          exact hk)
      hfold ⟨rfl, rfl, rfl⟩
    obtain ⟨hsent, hfaces, hreported⟩ := hend
    refine ⟨hsent, .inr ⟨?_, ?_⟩⟩
    · exact hfaces ▸ htable
    · exact congrArg (List.filter (· ≠ face)) hreported

end Forwarder

theorem FaceTable.latest_remove {t t' : FaceTable} {face : FaceId}
    (h : t.remove face = (true, t')) : t'.latest = t.latest := by
  rw [FaceTable.remove] at h
  split at h
  · cases h
  · split at h
    · cases h
      rfl
    · cases h

/-- A face that is added has the next number. -/
theorem FaceTable.contains_add {t t' : FaceTable} {takes : Nat → Bool} {scope : FaceScope}
    {link : LinkType} {new : FaceId} (h : t.add takes scope link = some (new, t')) :
    t'.latest = t.latest + 1 ∧ ∀ face, t'.contains face = true →
      t.contains face = true ∨ face.id = t.latest + 1 := by
  rw [FaceTable.add] at h
  split at h
  · cases h
    refine ⟨rfl, fun face hface => ?_⟩
    obtain ⟨f, hf, rfl⟩ := FaceTable.contains_iff.mp hface
    rcases List.mem_append.mp hf with hold | hnew
    · exact .inl (FaceTable.contains_iff.mpr ⟨f, hold, rfl⟩)
    · cases List.mem_singleton.mp hnew
      exact .inr rfl
  · cases h

/-! ### Reports along runs -/

/-- Whether the operation takes the report of the disconnected faces. -/
def Operation.isTake : Operation → Bool
  | takeDisconnected => true
  | _ => false

/-- Whether the link of a face refused a packet in the step. -/
def Step.Refuses (s : Step) (face : FaceId) : Prop :=
  Refused s.sent face

/-- What becomes of the faces and of their reports if some links refuse packets. -/
structure Node.Reports (n n' : Node) (refuses : FaceId → Prop) : Prop where
  nodup : n.disconnected.Nodup → n'.disconnected.Nodup
  mem : ∀ face, n'.faces.contains face = true →
    (face ∈ n'.disconnected ↔ face ∈ n.disconnected ∨ refuses face)
  known : ∀ face, refuses face → face ∈ n'.disconnected
  latest : n.faces.latest ≤ n'.faces.latest
  faces : ∀ face, n'.faces.contains face = true → n.faces.contains face = true ∨
    n.faces.latest < face.id ∧ face.id ≤ n'.faces.latest

/-- A step that sends nothing and leaves the reports leaves no link a chance to refuse anything. -/
theorem Node.Reports.silent {n n' : Node} {refuses : FaceId → Prop}
    (hrefuses : ∀ face, ¬ refuses face) (hreported : n'.disconnected = n.disconnected)
    (hlatest : n.faces.latest ≤ n'.faces.latest)
    (hfaces : ∀ face, n'.faces.contains face = true → n.faces.contains face = true ∨
      n.faces.latest < face.id ∧ face.id ≤ n'.faces.latest) : n.Reports n' refuses where
  nodup hnodup := hreported ▸ hnodup
  mem face _ := by rw [hreported, or_iff_left (hrefuses face)]
  known face hrefused := absurd hrefused (hrefuses face)
  latest := hlatest
  faces := hfaces

theorem Step.not_refuses {s : Step} (h : s.after.node.journal.sent = s.before.node.journal.sent)
    (face : FaceId) : ¬ s.Refuses face := by
  rw [Step.Refuses, Step.sent, h, List.drop_length]
  rintro ⟨t, ht, _⟩
  cases ht

namespace Forwarder

variable {fw fw' : Forwarder} {operation : Operation}

section Faces

variable {refuses : FaceId → Prop} (hrefuses : ∀ face, ¬ refuses face)
include hrefuses

theorem reports_addFace (fw : Forwarder) (takes : Nat → Bool) (scope : FaceScope)
    (link : LinkType) :
    fw.node.Reports (((fw.addFace takes scope link).map Prod.snd).getD fw).node refuses := by
  rw [Forwarder.addFace]
  cases hadd : fw.node.faces.add takes scope link with
  | none => exact .silent hrefuses rfl le_rfl fun _ => .inl
  | some added =>
      obtain ⟨hlatest, hfaces⟩ := FaceTable.contains_add hadd
      refine .silent hrefuses rfl (hlatest ▸ Nat.le_succ _) fun face hknown => ?_
      refine (hfaces face hknown).imp_right fun hid => ?_
      exact ⟨hid ▸ Nat.lt_succ_self _, (hid.trans hlatest.symm).le⟩

theorem reports_removeFace {now : Timestamp} {face : FaceId} {isRemoved : Bool}
    (hremove : fw.removeFace now face = .ok (isRemoved, fw')) :
    fw.node.Reports fw'.node refuses := by
  obtain ⟨_, ⟨hfaces, hreported⟩ | ⟨htable, hreported⟩⟩ := removeFace_links hremove
  · exact .silent hrefuses hreported (hfaces ▸ le_rfl) fun g hknown => .inl (hfaces ▸ hknown)
  · have hcontains := FaceTable.contains_remove htable
    constructor
    · intro hnodup
      rw [hreported]
      exact hnodup.filter _
    · intro g hknown
      rw [or_iff_left (hrefuses g), hreported, List.mem_filter]
      exact and_iff_left (decide_eq_true ((hcontains g).mp hknown).2)
    · intro g hrefused
      exact absurd hrefused (hrefuses g)
    · exact (FaceTable.latest_remove htable).ge
    · intro g hknown
      exact .inl ((hcontains g).mp hknown).1

theorem reports_hangUp (fw : Forwarder) (face : FaceId) :
    fw.node.Reports (fw.hangUp face).node refuses := by
  refine .silent hrefuses rfl le_rfl fun g hknown => .inl ?_
  rwa [FaceTable.contains_eq, info?_hangUp, ← FaceTable.contains_eq] at hknown

end Faces

/-- What a step does to the reports, as long as it does not take them. -/
theorem reports_of_step (h : fw.Valid) (hperform : fw.perform operation = .ok fw')
    (hkeeps : operation.isTake = false) :
    fw.node.Reports fw'.node (Step.mk fw operation fw').Refuses := by
  cases hother : operation.concernsFaces with
  | false =>
      obtain ⟨new, hsent, hreported, hlatest⟩ := reports_perform h.builtIn hother hperform
      have hnew : (Step.mk fw operation fw').sent = new := by
        rw [Step.sent, hsent, List.drop_left]
      constructor
      · intro hnodup
        rw [hreported]
        exact nodup_reportsAfter hnodup new
      · intro face _
        rw [hreported, mem_reportsAfter, Step.Refuses, hnew]
      · intro face hrefuses
        rw [hreported]
        rw [Step.Refuses, hnew] at hrefuses
        exact mem_reportsAfter.mpr (.inr hrefuses)
      · exact hlatest.ge
      · intro face hknown
        exact .inl (contains_perform h hother hperform hknown)
  | true =>
      -- Nothing is sent, so that no link refuses anything.
      cases operation with
      | addFace takes scope link =>
          have hsilent := Step.not_refuses (s := ⟨fw, .addFace takes scope link, fw'⟩)
            (idle_of_untimed hperform rfl).sent
          cases hperform
          exact reports_addFace hsilent fw takes scope link
      | removeFace now face =>
          obtain ⟨⟨isRemoved, last⟩, hremove, rfl⟩ := map_eq_ok.mp hperform
          exact reports_removeFace (Step.not_refuses (removeFace_links hremove).1) hremove
      | hangUp face =>
          have hsilent := Step.not_refuses (s := ⟨fw, .hangUp face, fw'⟩)
            (idle_of_untimed hperform rfl).sent
          cases hperform
          exact reports_hangUp hsilent fw face
      | takeDisconnected => cases hkeeps
      | _ => cases hother

end Forwarder

/-- The steps of a run since the report of the disconnected faces was taken last. -/
def sinceTaken (history : List Step) : List Step :=
  history.takeWhile fun s => !s.operation.isTake

/-- Whether the link of a face refused a packet since the report was taken last. -/
def RefusedLately (history : List Step) (face : FaceId) : Prop :=
  ∃ s ∈ sinceTaken history, s.Refuses face

/-- What is known of the report of disconnected faces along a run. A face that refused something has
a number that was given before, so that no later face has it. -/
structure Node.Accounts (n : Node) (history : List Step) : Prop where
  nodup : n.disconnected.Nodup
  mem : ∀ face, n.faces.contains face = true →
    (face ∈ n.disconnected ↔ RefusedLately history face)
  given : ∀ face, n.faces.contains face = true ∨ RefusedLately history face →
    face.id ≤ n.faces.latest

theorem refusedLately_cons {s : Step} {history : List Step} (hkeeps : s.operation.isTake = false)
    (face : FaceId) :
    RefusedLately (s :: history) face ↔ s.Refuses face ∨ RefusedLately history face := by
  simp [RefusedLately, sinceTaken, hkeeps]

theorem Node.Accounts.step {n n' : Node} {history : List Step} {s : Step} (h : n.Accounts history)
    (hkeeps : s.operation.isTake = false) (hreports : n.Reports n' s.Refuses)
    (hgrounded : n.Grounded) (hgrounded' : n'.Grounded) : n'.Accounts (s :: history) := by
  have hgiven (face : FaceId) (hknown : n'.faces.contains face = true) :
      face.id ≤ n'.faces.latest := by
    rcases hreports.faces face hknown with hold | ⟨_, hnew⟩
    · exact (h.given face (.inl hold)).trans hreports.latest
    · exact hnew
  constructor
  · exact hreports.nodup h.nodup
  · intro face hknown
    rw [hreports.mem face hknown, refusedLately_cons hkeeps, or_comm]
    refine or_congr_right ?_
    rcases hreports.faces face hknown with hold | ⟨hlater, _⟩
    · exact h.mem face hold
    · -- A new face has a number that nothing was known of before.
      constructor
      · intro hreported
        have hold := h.given face (.inl (hgrounded.disconnected face hreported))
        exact absurd hold (Nat.not_le.mpr hlater)
      · intro hrefused
        exact absurd (h.given face (.inr hrefused)) (Nat.not_le.mpr hlater)
  · intro face hface
    rw [refusedLately_cons hkeeps] at hface
    rcases hface with hknown | hrefuses | hlately
    · exact hgiven face hknown
    · exact hgiven face (hgrounded'.disconnected face (hreports.known face hrefuses))
    · exact (h.given face (.inr hlately)).trans hreports.latest

/-- The report of disconnected faces: each face that exists and had a packet refused since the
report was taken last, once. -/
structure Forwarder.ReportsRefusals (fw : Forwarder) (history : List Step) : Prop where
  nodup : fw.node.disconnected.Nodup
  mem : ∀ face, face ∈ fw.node.disconnected ↔
    fw.node.faces.contains face = true ∧ RefusedLately history face

section Runs

variable {settings : Settings} {store : ContentStore} {hash : HashFunction} {fw fw' : Forwarder}
  {history history' : List Step}

theorem Run.accounts (run : Run (Forwarder.new settings store hash) history fw) :
    fw.node.Accounts history := by
  induction run with
  | start =>
      refine ⟨List.nodup_nil, ?_, ?_⟩
      · intro face _
        simp [RefusedLately, sinceTaken, Forwarder.new]
      · rintro face (hknown | ⟨s, hs, _⟩)
        · obtain ⟨f, hf, rfl⟩ := FaceTable.contains_iff.mp hknown
          cases List.mem_singleton.mp hf
          exact (by decide : FaceId.contentStore.id ≤ FaceId.firstDynamic - 1)
        · cases hs
  | @step earlier before after run operation hperform ih =>
      cases hkeeps : operation.isTake with
      | false =>
          exact ih.step hkeeps (Forwarder.reports_of_step run.valid hperform hkeeps) run.grounded
            (run.step operation hperform).grounded
      | true =>
          cases operation with
          | takeDisconnected =>
              cases hperform
              refine ⟨List.nodup_nil, ?_, ?_⟩
              · intro face _
                simp [RefusedLately, sinceTaken, Operation.isTake, Forwarder.takeDisconnected,
                  Forwarder.onNode]
              · rintro face (hknown | ⟨s, hs, _⟩)
                · exact ih.given face (.inl hknown)
                · cases hs
          | _ => cases hkeeps

theorem Run.reportsRefusals (run : Run (Forwarder.new settings store hash) history fw) :
    fw.ReportsRefusals history where
  nodup := run.accounts.nodup
  mem face := by
    constructor
    · intro hreported
      have hknown := run.grounded.disconnected face hreported
      exact ⟨hknown, (run.accounts.mem face hknown).mp hreported⟩
    · rintro ⟨hknown, hrefused⟩
      exact (run.accounts.mem face hknown).mpr hrefused

theorem Run.sameButLinks (run : Run (Forwarder.new settings store hash) history fw)
    (run' : Run (Forwarder.new settings store hash) history' fw')
    (hcalls : calls history = calls history') : fw.SameButLinks fw' := by
  have hview := run.intact
  rw [hcalls, run'.intact] at hview
  exact Forwarder.sameButLinks_of_intact (Except.ok.inj hview).symm

/-- Whatever links refuse, two runs with the same calls share all but what their links did whenever
they have come equally far, and each then reports the faces that refused something. -/
theorem refusals_disturb_nobody
    (run : Run (Forwarder.new settings store hash) history fw)
    (run' : Run (Forwarder.new settings store hash) history' fw')
    (hcalls : calls history = calls history') {s s' : Step} {earlier earlier' : List Step}
    (hs : s :: earlier <:+ history) (hs' : s' :: earlier' <:+ history')
    (hmoment : (calls (s :: earlier)).length = (calls (s' :: earlier')).length) :
    s.after.SameButLinks s'.after ∧ s.after.ReportsRefusals (s :: earlier) ∧
      s'.after.ReportsRefusals (s' :: earlier') := by
  obtain ⟨later, rfl⟩ := hs
  obtain ⟨later', rfl⟩ := hs'
  obtain ⟨last, hrun⟩ := run.suffix
  obtain ⟨last', hrun'⟩ := run'.suffix
  obtain ⟨_, _, rfl⟩ := hrun.last
  obtain ⟨_, _, rfl⟩ := hrun'.last
  have hsame : calls (s :: earlier) = calls (s' :: earlier') := by
    rw [calls, calls, List.filterMap_append, List.filterMap_append] at hcalls
    exact (List.append_inj' hcalls hmoment).2
  exact ⟨hrun.sameButLinks hrun' hsame, hrun.reportsRefusals, hrun'.reportsRefusals⟩

end Runs

/-- The history of some operations is a history of their calls. -/
theorem calls_of_record {start fw : Forwarder} {operations : List Operation} {history : List Step}
    (h : record start operations = .ok (history, fw)) :
    calls history = operations.filterMap Operation.call? := by
  induction operations generalizing history fw with
  | nil =>
      cases h
      rfl
  | cons operation earlier ih =>
      obtain ⟨⟨before, middle⟩, hearlier, hrest⟩ := bind_eq_ok.mp h
      obtain ⟨last, _, hresult⟩ := bind_eq_ok.mp hrest
      cases hresult
      rw [List.filterMap_cons, ← ih hearlier]
      rfl

theorem calls_historyOf {start : Forwarder} {operations : List Operation}
    (h : (record start operations).isOk = true) :
    calls (historyOf start operations) = operations.filterMap Operation.call? := by
  rw [historyOf]
  cases hrecord : record start operations with
  | error fault =>
      rw [hrecord] at h
      cases h
  | ok last => exact calls_of_record hrecord

namespace Sample

/-- An Interest is sent to the second face and answered, and then sent again; the report is taken
before it is answered. -/
def exchange (takes : Nat → Bool) (meanwhile : List Operation) : List Operation :=
  [ask ⟨4⟩ ⟨2⟩, reply ⟨3⟩, .takeDisconnected] ++ meanwhile ++
    [ask ⟨2⟩ ⟨1⟩, .addRoute ⟨1⟩ name ⟨257⟩ 0, .addFace takes .offHost .pointToPoint,
      .addFace (fun _ => true) .offHost .pointToPoint]

/-- The second face takes nothing. -/
def deafSecond : List Operation :=
  exchange (fun _ => false) []

/-- The first face goes away while it waits. -/
def lostFirst : List Operation :=
  exchange (fun _ => true) [.hangUp ⟨256⟩]

end Sample

/-- Each run reports another face, and both send the same packets. -/
theorem refusals_disturb_nobody_either : ∃ history history' fw fw',
    Run Sample.start history fw ∧ Run Sample.start history' fw' ∧
    calls history = calls history' ∧ fw.node.disconnected = [⟨257⟩] ∧
    fw'.node.disconnected = [⟨256⟩] ∧ fw.node.journal.sent.length = 3 ∧ fw.SameButLinks fw' ∧
    fw.ReportsRefusals history ∧ fw'.ReportsRefusals history' := by
  have hok : (record Sample.start Sample.deafSecond).isOk = true := by decide +kernel
  have hok' : (record Sample.start Sample.lostFirst).isOk = true := by decide +kernel
  have run := Run.reached Sample.start Sample.deafSecond hok
  have run' := Run.reached Sample.start Sample.lostFirst hok'
  have hcalls : calls (historyOf Sample.start Sample.deafSecond) =
      calls (historyOf Sample.start Sample.lostFirst) := by
    rw [calls_historyOf hok, calls_historyOf hok']
    rfl
  have hlast := historyOf_cons Sample.start (Sample.ask ⟨4⟩ ⟨2⟩) Sample.deafSecond.tail hok
  have hlast' := historyOf_cons Sample.start (Sample.ask ⟨4⟩ ⟨2⟩) Sample.lostFirst.tail hok'
  obtain ⟨hsame, hreports, hreports'⟩ := refusals_disturb_nobody run run' hcalls
    ⟨[], hlast.symm⟩ ⟨[], hlast'.symm⟩ (by rw [← hlast, ← hlast']; exact congrArg _ hcalls)
  rw [← hlast] at hreports
  rw [← hlast'] at hreports'
  exact ⟨_, _, _, _, run, run', hcalls, by decide +kernel, by decide +kernel, by decide +kernel,
    hsame, hreports, hreports'⟩

end NamedData
