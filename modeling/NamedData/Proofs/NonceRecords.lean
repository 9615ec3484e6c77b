import NamedData.Proofs.Deadlines
import NamedData.Proofs.Entries

/-!
The nonces that an entry has on record. A face waits with the nonce of its latest Interest, and an
upstream is noted with the nonce that was sent to it last. No two faces wait with one nonce: an
Interest from another face would have been a loop. So an entry knows whose a nonce is for as long as
it has the nonce on record, and loses it only where a record is written anew or deleted.
-/

namespace NamedData

open Forwarder

/-! ### Records of one entry -/

namespace PitEntry

variable {e e' : PitEntry} {face : FaceId} {nonce : Nonce}

/-- The face waits with the nonce. -/
def WaitsWith (e : PitEntry) (face : FaceId) (nonce : Nonce) : Prop :=
  ∃ r ∈ e.inRecords, r.face = face ∧ r.nonce = nonce

/-- The nonce is the one that was sent to the face last. -/
def SentWith (e : PitEntry) (face : FaceId) (nonce : Nonce) : Prop :=
  ∃ o ∈ e.outRecords, o.face = face ∧ o.nonce = nonce

/-- No face but the given one waits with the nonce. -/
def OnlyFrom (e : PitEntry) (face : FaceId) (nonce : Nonce) : Prop :=
  ∀ r ∈ e.inRecords, r.nonce = nonce → r.face = face

/-- Whoever waits asks for the same as the entry, and no two faces wait with one nonce. -/
structure Attributed (e : PitEntry) : Prop where
  nonce : ∀ r ∈ e.inRecords, r.nonce = r.interest.nonce
  same : ∀ r ∈ e.inRecords, e.interest.sameSelectors r.interest = true
  sole : ∀ r ∈ e.inRecords, e.OnlyFrom r.face r.nonce

theorem Attributed.onlyFrom (h : e.Attributed) (hwaits : e.WaitsWith face nonce) :
    e.OnlyFrom face nonce := by
  obtain ⟨r, hr, rfl, rfl⟩ := hwaits
  exact h.sole r hr

theorem OnlyFrom.of_sublist (h : e.OnlyFrom face nonce) (hin : e'.inRecords.Sublist e.inRecords) :
    e'.OnlyFrom face nonce :=
  fun r hr => h r (hin.subset hr)

theorem Attributed.of_sublist (h : e.Attributed) (hin : e'.inRecords.Sublist e.inRecords)
    (hinterest : e'.interest = e.interest) : e'.Attributed where
  nonce r hr := h.nonce r (hin.subset hr)
  same r hr := hinterest ▸ h.same r (hin.subset hr)
  sole r hr := (h.sole r (hin.subset hr)).of_sublist hin

/-- A nonce that is on record, and with which nobody but one face waits, loops on any other face. -/
theorem isLoop_of_onRecord {info : FaceInfo} {ingress : FaceId} (honly : e.OnlyFrom face nonce)
    (hother : ingress ≠ face)
    (hrecord : (∃ upstream, e.SentWith upstream nonce) ∨ e.WaitsWith face nonce) :
    isLoop info (e.findNonce nonce ingress) = true := by
  have hsame : (e.findNonce nonce ingress).inSame = false := by
    rw [Bool.eq_false_iff]
    intro hfound
    obtain ⟨r, hr, hrecord⟩ := List.any_eq_true.mp hfound
    simp only [Bool.and_eq_true, decide_eq_true_eq] at hrecord
    exact hother (hrecord.2.symm.trans (honly r hr hrecord.1))
  have hfound : (e.findNonce nonce ingress).isNone = false := by
    simp only [DuplicateNonce.isNone, hsame, Bool.not_false, Bool.true_and]
    rcases hrecord with ⟨_, o, ho, rfl, rfl⟩ | ⟨r, hr, rfl, rfl⟩
    · have hout : (e.findNonce o.nonce ingress).outSame = true ∨
          (e.findNonce o.nonce ingress).outOther = true := by
        by_cases same : o.face = ingress
        · exact .inl (List.any_eq_true.mpr ⟨o, ho, by simp [same]⟩)
        · exact .inr (List.any_eq_true.mpr ⟨o, ho, by simp [same]⟩)
      rcases hout with hout | hout <;> simp [hout]
    · have hin : (e.findNonce r.nonce ingress).inOther = true :=
        List.any_eq_true.mpr ⟨r, hr, by simp [hother.symm]⟩
      simp [hin]
  simp [isLoop, hsame, hfound]

/-- With a nonce that does not loop nobody else waits. -/
theorem Attributed.onlyFrom_of_not_loop (h : e.Attributed) {info : FaceInfo}
    (hloop : isLoop info (e.findNonce nonce face) = false) : e.OnlyFrom face nonce := by
  intro r hr hnonce
  by_contra hother
  have hwaits : e.WaitsWith r.face nonce := ⟨r, hr, rfl, hnonce⟩
  have hfound : isLoop info (e.findNonce nonce face) = true :=
    isLoop_of_onRecord (h.onlyFrom hwaits) (Ne.symm hother) (.inr hwaits)
  rw [hloop] at hfound
  cases hfound

theorem OnlyFrom.recordIn (h : e.OnlyFrom face nonce) (hnodup : e.inFaces.Nodup)
    {ingress : FaceEndpoint} {interest : Interest} (now : Timestamp)
    (hnew : interest.nonce = nonce → ingress.face = face) :
    (e.recordIn ingress interest now).OnlyFrom face nonce := by
  intro r hr hnonce
  rcases (mem_inRecords_recordIn hnodup).mp hr with rfl | ⟨hold, _⟩
  · exact hnew hnonce
  · exact h r hold hnonce

theorem Attributed.recordIn (h : e.Attributed) (hnodup : e.inFaces.Nodup) {ingress : FaceEndpoint}
    {interest : Interest} {info : FaceInfo} (now : Timestamp)
    (hsame : e.interest.sameSelectors interest = true)
    (hloop : isLoop info (e.findNonce interest.nonce ingress.face) = false) :
    (e.recordIn ingress interest now).Attributed where
  nonce r hr := by
    rcases (mem_inRecords_recordIn hnodup).mp hr with rfl | ⟨hold, _⟩
    · rfl
    · exact h.nonce r hold
  same r hr := by
    rcases (mem_inRecords_recordIn hnodup).mp hr with rfl | ⟨hold, _⟩
    · exact hsame
    · exact h.same r hold
  sole r hr := by
    have hsole := h.onlyFrom_of_not_loop hloop
    rcases (mem_inRecords_recordIn hnodup).mp hr with rfl | ⟨hold, _⟩
    · exact hsole.recordIn hnodup now fun _ => rfl
    · exact (h.sole r hold).recordIn hnodup now fun hnonce => (hsole r hold hnonce.symm).symm

theorem sentWith_recordOut (hnodup : e.outFaces.Nodup) (hsent : e.SentWith face nonce)
    (egress : FaceEndpoint) {interest : Interest} (now : Timestamp)
    (hkeeps : egress.face = face → interest.nonce = nonce) :
    (e.recordOut egress interest now).SentWith face nonce := by
  obtain ⟨o, ho, rfl, rfl⟩ := hsent
  by_cases same : o.face = egress.face
  · exact ⟨_, (mem_outRecords_recordOut hnodup).mpr (.inl rfl), same.symm, hkeeps same.symm⟩
  · exact ⟨o, (mem_outRecords_recordOut hnodup).mpr (.inr ⟨ho, same⟩), rfl, rfl⟩

theorem sentWith_recordNack (hsent : e.SentWith face nonce) (other : FaceId) (reason : NackReason) :
    (e.recordNack other reason).SentWith face nonce := by
  obtain ⟨o, ho, rfl, rfl⟩ := hsent
  refine ⟨_, List.mem_map_of_mem ho, ?_, ?_⟩ <;> split <;> rfl

/-- A face has one out-record, so the one that is found is the one that there is. -/
theorem outRecord?_of_mem (hnodup : e.outFaces.Nodup) {o : OutRecord} (ho : o ∈ e.outRecords) :
    e.outRecord? o.face = some o := by
  cases hfind : e.outRecord? o.face with
  | none =>
      have hother := List.find?_eq_none.mp hfind o ho
      simp at hother
  | some found =>
      have hface : found.face = o.face := by simpa using List.find?_some hfind
      have hfound := List.mem_of_find?_eq_some hfind
      exact congrArg some (List.inj_on_of_nodup_map hnodup hfound ho hface)

end PitEntry

/-! ### Losses -/

/-- The ways in which a node may lose the nonce of an Interest that was sent to a face: another
Interest for the same is sent there, the face is removed, or Data comes from it. -/
inductive LosesSent (hash : HashFunction) (operation : Operation) (sent : List Transmission)
    (face : FaceId) (i : Interest) : Prop where
  | replaced {t : Transmission} {j : Interest} (ht : t ∈ sent) (hpeer : t.peer.face = face)
      (hpacket : t.packet = .interest j) (hsame : i.sameSelectors j = true)
      (hnonce : j.nonce ≠ i.nonce)
  | removed {now : Timestamp} (hcall : operation = .removeFace now face)
  | answered {now : Timestamp} {ingress : FaceEndpoint} {data : Data}
      (hcall : operation = .receive now ingress (.data data)) (hface : ingress.face = face)
      (hanswers : i.isAnsweredBy data.name (data.implicitDigest hash) = true)

/-- The ways in which a node may lose the nonce of an Interest that waits: another Interest for the
same comes from its face, it is handed back, the face is removed, or Data comes in. -/
inductive LosesAwaited (hash : HashFunction) (operation : Operation) (sent : List Transmission)
    (face : FaceId) (i : Interest) : Prop where
  | replaced {now : Timestamp} {ingress : FaceEndpoint} {j : Interest}
      (hcall : operation = .receive now ingress (.interest j)) (hface : ingress.face = face)
      (hsame : i.sameSelectors j = true) (hnonce : j.nonce ≠ i.nonce)
  | handedBack {t : Transmission} {nack : Nack} (ht : t ∈ sent) (hpeer : t.peer.face = face)
      (hpacket : t.packet = .nack nack) (hsame : i.sameSelectors nack.interest = true)
      (hnonce : nack.interest.nonce = i.nonce)
  | removed {now : Timestamp} (hcall : operation = .removeFace now face)
  | answered {now : Timestamp} {ingress : FaceEndpoint} {data : Data}
      (hcall : operation = .receive now ingress (.data data))
      (hanswers : i.isAnsweredBy data.name (data.implicitDigest hash) = true)

variable {hash : HashFunction} {operation : Operation} {sent sent' : List Transmission}
  {face : FaceId} {i : Interest}

theorem LosesSent.mono (h : LosesSent hash operation sent face i) (hsub : ∀ t ∈ sent, t ∈ sent') :
    LosesSent hash operation sent' face i := by
  cases h with
  | replaced ht hpeer hpacket hsame hnonce => exact .replaced (hsub _ ht) hpeer hpacket hsame hnonce
  | removed hcall => exact .removed hcall
  | answered hcall hface hanswers => exact .answered hcall hface hanswers

theorem LosesAwaited.mono (h : LosesAwaited hash operation sent face i)
    (hsub : ∀ t ∈ sent, t ∈ sent') : LosesAwaited hash operation sent' face i := by
  cases h with
  | replaced hcall hface hsame hnonce => exact .replaced hcall hface hsame hnonce
  | handedBack ht hpeer hpacket hsame hnonce =>
      exact .handedBack (hsub _ ht) hpeer hpacket hsame hnonce
  | removed hcall => exact .removed hcall
  | answered hcall hanswers => exact .answered hcall hanswers

/-! ### One deed on an entry -/

namespace Focus

variable {f f' : Focus} {nonce : Nonce}

theorem Deed.attributed (hdeed : Deed hash operation f f') (hf : f.Sound)
    (h : f.entry.Attributed) : f'.entry.Attributed := by
  rcases hdeed.inRecords with
    hin | ⟨_, ingress, i, info, hint, _, _, _, hsame, hloop, rfl⟩
  · exact h.of_sublist hin hdeed.keeps.interest
  · let arrived := i.arrived ingress.face hint
    have hrecorded : (f.entry.recordIn ingress arrived f.node.now).Attributed :=
      h.recordIn hf.distinct.inFaces f.node.now hsame hloop
    exact hrecorded.of_sublist (List.Sublist.refl _) rfl

/-- An Interest that a deed may send from an entry: the one that came in, or one that waits, to a
next hop that appeared and owes the entry no answer. -/
inductive MaySend (operation : Operation) (f : Focus) (egress : FaceId) (interest : Interest) :
    Prop where
  | incoming {now : Timestamp} {ingress : FaceEndpoint} {i : Interest} (hint : List Name)
      (hcall : operation = .receive now ingress (.interest i))
      (hsame : f.entry.interest.sameSelectors i = true)
      (hinterest : interest = i.arrived ingress.face hint)
  | waiting {now : Timestamp} {stem : Name} {cost : Nat} {r : InRecord}
      (hcall : operation = .addRoute now stem egress cost) (hwaits : r ∈ f.entry.inRecords)
      (hidle : (f.entry.outRecord? egress).any (fun r => r.isPending f.node.now) = false)
      (hinterest : interest = r.interest)

theorem MaySend.sameSelectors {egress : FaceId} {interest : Interest}
    (h : f.MaySend operation egress interest) (hattributed : f.entry.Attributed) :
    f.entry.interest.sameSelectors interest = true := by
  cases h with
  | incoming hint _ hsame hinterest => exact hinterest ▸ hsame
  | waiting _ hwaits _ hinterest => exact hinterest ▸ hattributed.same _ hwaits

/-- The packet is no Interest. -/
def Answers (t : Transmission) : Prop :=
  ∀ i, t.packet ≠ .interest i

/-- What a deed makes of the out-records of an entry. An Interest that is sent is noted; Nacks are
noted as well, and the records of a face go with its Data and with the face. -/
inductive OutEffect (hash : HashFunction) (operation : Operation) (f f' : Focus) : Prop where
  | sends {egress : FaceId} {interest : Interest} {isTaken : Bool}
      (hmay : f.MaySend operation egress interest)
      (hrecords : f'.entry.outRecords =
        (f.entry.recordOut { face := egress } interest f.node.now).outRecords)
      (hsent : f'.node.journal.sent = f.node.journal.sent ++
        [Transmission.mk { face := egress } (.interest interest.untagged) isTaken])
  | keeps (hrecords : f'.entry.outRecords = f.entry.outRecords)
      (hsent : Extends f.node.journal.sent f'.node.journal.sent Answers)
  | nacked {now : Timestamp} {ingress : FaceEndpoint} {nack : Nack}
      (hcall : operation = .receive now ingress (.nack nack))
      (hrecords : f'.entry.outRecords = (f.entry.recordNack ingress.face nack.reason).outRecords)
      (hsent : Extends f.node.journal.sent f'.node.journal.sent Answers)
  | served {now : Timestamp} {ingress : FaceEndpoint} {data : Data}
      (hcall : operation = .receive now ingress (.data data))
      (hanswers : f.entry.interest.isAnsweredBy data.name (data.implicitDigest hash) = true)
      (hrecords : f'.entry.outRecords = f.entry.outRecords.filter fun r => r.face ≠ ingress.face)
      (hsent : Extends f.node.journal.sent f'.node.journal.sent Answers)
  | forgot {now : Timestamp} {face : FaceId} (hcall : operation = .removeFace now face)
      (hrecords : f'.entry.outRecords = f.entry.outRecords.filter fun r => r.face ≠ face)
      (hsent : Extends f.node.journal.sent f'.node.journal.sent Answers)

theorem answers_data {t : Transmission} {data : Data} (h : t.packet = .data data) : Answers t := by
  intro i hi
  rw [h] at hi
  cases hi

theorem sent_forgetFace (face : FaceId) (f : Focus) :
    (forgetFace face f).node.journal.sent = f.node.journal.sent := by
  rcases forgetFace_cases face f with ⟨_, hforget⟩ | ⟨_, hforget | hforget⟩ <;> rw [hforget] <;> rfl

theorem Deed.outEffect (h : Deed hash operation f f') : OutEffect hash operation f f' := by
  cases h with
  | talk hquiet => exact .keeps (by rw [hquiet.entry]) (.of_eq hquiet.node.sent)
  | hit data => exact .keeps rfl (.of_eq rfl)
  | answer data =>
      exact .keeps rfl (extends_sendData _ data fun _ hdata _ => answers_data hdata)
  | wait hint => exact .keeps rfl (.of_eq rfl)
  | mark decision => exact .keeps rfl (.of_eq rfl)
  | forward hint hcall _ hsame _ hinfo _ =>
      obtain ⟨isTaken, hsent⟩ := sent_sendInterest hinfo _
      refine .sends (.incoming hint hcall hsame rfl) ?_ hsent
      rw [sendInterest_of_known (FaceTable.contains_of_info? hinfo)]
  | offer hcall hwaits _ hidle hinfo _ =>
      obtain ⟨isTaken, hsent⟩ := sent_sendInterest hinfo _
      refine .sends (.waiting hcall hwaits hidle rfl) ?_ hsent
      rw [sendInterest_of_known (FaceTable.contains_of_info? hinfo)]
  | handBack egress reason _ =>
      refine .keeps (f.records_sendNack egress reason).1 ?_
      rcases f.sent_sendNack egress reason with ⟨notice, hsay⟩ | ⟨_, _, _, _, _, _, _, hsent⟩
      · exact .of_eq (by rw [hsay]; rfl)
      · exact .one hsent fun _ hi => by cases hi
  | giveUp => exact .keeps rfl (.of_eq rfl)
  | nacked hcall =>
      refine .nacked hcall ?_ (.of_eq ?_)
      · rw [recordNack]
        split <;> rfl
      · rw [recordNack]
        split <;> rfl
  | serve hcall hanswers hserved =>
      obtain ⟨new, hsent, hnew⟩ := hserved.sent
      exact .served hcall hanswers hserved.outRecords
        ⟨new, hsent, fun t ht => answers_data (hnew t ht).1⟩
  | forget hcall => exact .forgot hcall (records_forgetFace _ f).2 (.of_eq (sent_forgetFace _ f))

theorem Deed.sentWith (h : Deed hash operation f f') (hf : f.Sound)
    (hattributed : f.entry.Attributed) (hsame : f.entry.interest.sameSelectors i = true)
    (hsent : f.entry.SentWith face i.nonce) :
    f'.entry.SentWith face i.nonce ∨ LosesSent hash operation
      (f'.node.journal.sent.drop f.node.journal.sent.length) face i := by
  have hfiltered {other : FaceId} (hother : other ≠ face)
      (hrecords : f'.entry.outRecords = f.entry.outRecords.filter fun r => r.face ≠ other) :
      f'.entry.SentWith face i.nonce := by
    obtain ⟨o, ho, rfl, hnonce⟩ := hsent
    refine ⟨o, ?_, rfl, hnonce⟩
    rw [hrecords]
    exact List.mem_filter.mpr ⟨ho, by simpa using hother.symm⟩
  cases h.outEffect with
  | @sends egress interest isTaken hmay hrecords hnew =>
      by_cases hkeeps : egress = face → interest.nonce = i.nonce
      · left
        obtain ⟨o, ho, hrecord⟩ :=
          PitEntry.sentWith_recordOut hf.distinct.outFaces hsent ⟨egress, 0⟩ f.node.now hkeeps
        exact ⟨o, hrecords ▸ ho, hrecord⟩
      · right
        obtain ⟨hface, hnonce⟩ := Classical.not_imp.mp hkeeps
        rw [hnew, List.drop_left]
        refine .replaced (List.mem_singleton.mpr rfl) hface rfl ?_ hnonce
        rw [Interest.sameSelectors_comm] at hsame
        exact Interest.sameSelectors_trans hsame (hmay.sameSelectors hattributed)
  | keeps hrecords _ =>
      left
      rw [PitEntry.SentWith, hrecords]
      exact hsent
  | @nacked _ ingress nack _ hrecords _ =>
      left
      rw [PitEntry.SentWith, hrecords]
      exact PitEntry.sentWith_recordNack hsent ingress.face nack.reason
  | @served _ ingress _ hcall hanswers hrecords _ =>
      by_cases same : ingress.face = face
      · right
        rw [Interest.isAnsweredBy_congr hsame] at hanswers
        exact .answered hcall same hanswers
      · exact .inl (hfiltered same hrecords)
  | @forgot _ other hcall hrecords _ =>
      by_cases same : other = face
      · exact .inr (.removed (same ▸ hcall))
      · exact .inl (hfiltered same hrecords)

/-- What a deed makes of the record of somebody who waits. -/
inductive RecordEffect (hash : HashFunction) (operation : Operation) (f f' : Focus)
    (r : InRecord) : Prop where
  | stays (hr : r ∈ f'.entry.inRecords)
  /-- Another Interest of the face takes its place. -/
  | replaced {now : Timestamp} {ingress : FaceEndpoint} {j : Interest} {hint : List Name}
      (hcall : operation = .receive now ingress (.interest j)) (hface : ingress.face = r.face)
      (hasks : f.entry.interest.sameSelectors j = true)
      (hnew : PitEntry.inRecordOf ingress (j.arrived ingress.face hint) f.node.now ∈
        f'.entry.inRecords)
  | handedBack {reason : NackReason} {isTaken : Bool}
      (hsent : f'.node.journal.sent = f.node.journal.sent ++
        [⟨r.peer, .nack { interest := r.interest.untagged, reason }, isTaken⟩])
  | answered {now : Timestamp} {ingress : FaceEndpoint} {data : Data}
      (hcall : operation = .receive now ingress (.data data))
      (hanswers : f.entry.interest.isAnsweredBy data.name (data.implicitDigest hash) = true)
      (hsatisfied : f'.entry.satisfied = true)
  | removed {now : Timestamp} (hcall : operation = .removeFace now r.face)

theorem Deed.recordEffect (h : Deed hash operation f f') (hf : f.Sound) {r : InRecord}
    (hr : r ∈ f.entry.inRecords) : RecordEffect hash operation f f' r := by
  have hkept (hin : f'.entry.inRecords = f.entry.inRecords) :
      RecordEffect hash operation f f' r := .stays (hin ▸ hr)
  -- an entry in which somebody waits is not answered from the content store
  have hbusy (hempty : f.entry.inRecords = []) : False := by
    rw [hempty] at hr
    cases hr
  cases h with
  | talk hquiet => exact hkept (by rw [hquiet.entry])
  | hit data _ hempty => exact (hbusy hempty).elim
  | answer data _ hempty => exact (hbusy hempty).elim
  | @wait _ ingress j _ hint hcall _ _ hasks _ =>
      have hrecorded (new : InRecord) : new ∈ (f.entry.recordIn ingress
          (j.arrived ingress.face hint) f.node.now).inRecords ↔ _ :=
        PitEntry.mem_inRecords_recordIn hf.distinct.inFaces
      by_cases hother : r.face = ingress.face
      · exact .replaced hcall hother.symm hasks ((hrecorded _).mpr (.inl rfl))
      · exact .stays ((hrecorded r).mpr (.inr ⟨hr, hother⟩))
  | mark decision => exact hkept rfl
  | forward hint _ _ _ _ hinfo _ =>
      rw [sendInterest_of_known (FaceTable.contains_of_info? hinfo)] at hkept ⊢
      exact hkept rfl
  | offer _ _ _ _ hinfo _ =>
      rw [sendInterest_of_known (FaceTable.contains_of_info? hinfo)] at hkept ⊢
      exact hkept rfl
  | handBack egress reason hpeer =>
      rcases f.sent_sendNack egress reason with
        ⟨notice, hsay⟩ | ⟨_, record, isTaken, _, hrecord, hface, hentry, hsent⟩
      · exact hkept (by rw [hsay]; rfl)
      · by_cases hother : r.face = egress.face
        · have hfound : record = r :=
            List.inj_on_of_nodup_map hf.distinct.inFaces hrecord hr (hface.trans hother.symm)
          subst hfound
          exact .handedBack (by rw [hsent, hpeer record hr hother])
        · refine .stays ?_
          rw [hentry]
          exact (List.mem_eraseP_of_neg (by simpa using hother)).mpr hr
  | giveUp => exact hkept rfl
  | nacked =>
      apply hkept
      rw [recordNack]
      split <;> rfl
  | serve hcall hanswers hserved => exact .answered hcall hanswers hserved.satisfied
  | @forget _ other hcall =>
      by_cases same : r.face = other
      · exact .removed (same ▸ hcall)
      · refine .stays ?_
        rw [(records_forgetFace other f).1]
        exact List.mem_filter.mpr ⟨hr, by simpa using same⟩

theorem Deed.waitsWith (h : Deed hash operation f f') (hf : f.Sound)
    (hattributed : f.entry.Attributed) (hsame : f.entry.interest.sameSelectors i = true)
    (hwaits : f.entry.WaitsWith face i.nonce) :
    f'.entry.WaitsWith face i.nonce ∨ LosesAwaited hash operation
      (f'.node.journal.sent.drop f.node.journal.sent.length) face i := by
  have hsame' := Interest.sameSelectors_comm i f.entry.interest ▸ hsame
  obtain ⟨r, hr, rfl, hnonce⟩ := hwaits
  cases h.recordEffect hf hr with
  | stays hr => exact .inl ⟨r, hr, rfl, hnonce⟩
  | @replaced _ _ j _ hcall hface hasks hnew =>
      by_cases hagain : j.nonce = i.nonce
      · exact .inl ⟨_, hnew, hface, hagain⟩
      · exact .inr (.replaced hcall hface (Interest.sameSelectors_trans hsame' hasks) hagain)
  | handedBack hsent =>
      right
      rw [hsent, List.drop_left]
      exact .handedBack (List.mem_singleton.mpr rfl) rfl rfl
        (Interest.sameSelectors_trans hsame' (hattributed.same r hr))
        ((hattributed.nonce r hr).symm.trans hnonce)
  | answered hcall hanswers _ =>
      rw [Interest.isAnsweredBy_congr hsame] at hanswers
      exact .inr (.answered hcall hanswers)
  | removed hcall => exact .inr (.removed hcall)

/-! ### Interests that are sent are noted -/

/-- The nonce was sent to the face in this operation and is the one sent there last: the nonce that
came in, or one that waits and that the face, a new next hop, may still answer. -/
def Notes (operation : Operation) (now : Timestamp) (e : PitEntry) (face : FaceId) (nonce : Nonce) :
    Prop :=
  ∃ o ∈ e.outRecords, o.face = face ∧ o.nonce = nonce ∧
    ((∃ reading ingress i, operation = .receive reading ingress (.interest i) ∧ i.nonce = nonce) ∨
      (∃ reading stem cost, operation = .addRoute reading stem face cost) ∧ o.isPending now = true)

theorem Notes.sendsOn {now : Timestamp} {e : PitEntry} (h : Notes operation now e face nonce) :
    operation.sendsOn = true := by
  obtain ⟨_, _, _, _, ⟨_, _, _, rfl, _⟩ | ⟨⟨_, _, _, rfl⟩, _⟩⟩ := h <;> rfl

/-- An Interest that is sent is noted. -/
theorem MaySend.notes {egress : FaceId} {interest : Interest}
    (h : f.MaySend operation egress interest) (hf : f.Sound) : Notes operation f.node.now
      (f.entry.recordOut { face := egress } interest f.node.now) egress interest.nonce := by
  have hnoted := PitEntry.outRecordOf_mem_recordOut hf.distinct.outFaces ⟨egress, 0⟩ interest
    f.node.now
  refine ⟨_, hnoted, rfl, rfl, ?_⟩
  cases h with
  | incoming hint hcall _ hinterest => exact .inl ⟨_, _, _, hcall, by rw [hinterest]; rfl⟩
  | waiting hcall _ _ _ =>
      have hlasts := Timestamp.le_adding f.node.now interest.lifetime
      exact .inr ⟨⟨_, _, _, hcall⟩, by simp [OutRecord.isPending, PitEntry.outRecordOf, hlasts]⟩

theorem Deed.notes (h : Deed hash operation f f') (hf : f.Sound)
    (hnotes : Notes operation f.node.now f.entry face nonce) :
    Notes operation f'.node.now f'.entry face nonce := by
  have hcalled := hnotes.sendsOn
  obtain ⟨o, ho, rfl, rfl, hwhy⟩ := hnotes
  rw [h.keeps.now]
  have hkept (hmem : o ∈ f'.entry.outRecords) :
      Notes operation f.node.now f'.entry o.face o.nonce := ⟨o, hmem, rfl, rfl, hwhy⟩
  cases h.outEffect with
  | @sends egress interest _ hmay hrecords _ =>
      rw [hrecords, PitEntry.mem_outRecords_recordOut hf.distinct.outFaces] at hkept
      by_cases hother : o.face = egress
      · -- in one operation nothing but the same nonce is sent to a face that owes an answer
        subst hother
        have hnonce : interest.nonce = o.nonce := by
          cases hmay with
          | incoming hint hcall _ hinterest =>
              rcases hwhy with ⟨_, _, _, hcall', hnonce⟩ | ⟨⟨_, _, _, hcall'⟩, _⟩
              · cases hcall.symm.trans hcall'
                rw [hinterest]
                exact hnonce
              · cases hcall.symm.trans hcall'
          | waiting hcall _ hidle _ =>
              rcases hwhy with ⟨_, _, _, hcall', _⟩ | ⟨_, hpending⟩
              · cases hcall.symm.trans hcall'
              · rw [PitEntry.outRecord?_of_mem hf.distinct.outFaces ho, Option.any_some,
                  hpending] at hidle
                cases hidle
        have hnoted := hmay.notes hf
        rw [hnonce] at hnoted
        rw [Notes, hrecords]
        exact hnoted
      · exact hkept (.inr ⟨ho, hother⟩)
  | keeps hrecords _ => exact hkept (hrecords ▸ ho)
  | nacked hcall => cases hcall ▸ hcalled
  | served hcall => cases hcall ▸ hcalled
  | forgot hcall => cases hcall ▸ hcalled

/-- Every Interest that a deed sends is noted in the entry that asks for the same. -/
theorem Deed.sendsNoted (h : Deed hash operation f f') (hf : f.Sound)
    (hattributed : f.entry.Attributed) :
    Extends f.node.journal.sent f'.node.journal.sent fun t => ∀ j, t.packet = .interest j →
      f'.entry.interest.sameSelectors j = true ∧
        Notes operation f'.node.now f'.entry t.peer.face j.nonce := by
  have hnone {t : Transmission} (ht : Answers t) : ∀ j, t.packet = .interest j →
      f'.entry.interest.sameSelectors j = true ∧
        Notes operation f'.node.now f'.entry t.peer.face j.nonce :=
    fun j hj => absurd hj (ht j)
  cases h.outEffect with
  | sends hmay hrecords hsent =>
      refine .one hsent ?_
      rintro j hj
      cases hj
      rw [h.keeps.interest, h.keeps.now, Notes, hrecords]
      exact ⟨hmay.sameSelectors hattributed, hmay.notes hf⟩
  | keeps _ hsent => exact hsent.mono fun _ => hnone
  | nacked _ _ hsent => exact hsent.mono fun _ => hnone
  | served _ _ _ hsent => exact hsent.mono fun _ => hnone
  | forgot _ _ hsent => exact hsent.mono fun _ => hnone

end Focus

/-! ### Runs of deeds -/

namespace Node

variable {n m : Node} {hash : HashFunction} {operation : Operation}

def Attributed (n : Node) : Prop :=
  ∀ token e, n.tables.pit.get? token = some e → e.Attributed

theorem Deed.attributed (h : Deed hash operation n m) (hn : n.Attributed) : m.Attributed := by
  refine h.forall_entries (P := fun _ _ _ e => e.Attributed) ?_ ?_ ?_ hn
  · exact fun _ _ _ _ _ _ => id
  · exact fun _ _ _ _ => ⟨by simp, by simp, by simp⟩
  · exact fun f f' hsound hdeed => hdeed.attributed hsound

theorem Deeds.attributed (h : Deeds hash operation n m) (hn : n.Attributed) : m.Attributed :=
  h.preserve (fun _ _ hdeed => hdeed.attributed) hn

/-- If the packet is an Interest, it was sent in this operation and is noted in the entry that asks
for the same. -/
def Notes (operation : Operation) (n : Node) (t : Transmission) : Prop :=
  ∀ j, t.packet = .interest j → ∃ token e, n.tables.pit.get? token = some e ∧
    e.interest.sameSelectors j = true ∧ Focus.Notes operation n.now e t.peer.face j.nonce

theorem notes_of_answers {t : Transmission} (h : Focus.Answers t) : Notes operation n t :=
  fun j hj => absurd hj (h j)

theorem Deed.notes (h : Deed hash operation n m) {t : Transmission} (hn : Notes operation n t) :
    Notes operation m t := by
  intro j hj
  obtain ⟨token, e, hget, hsame, hnotes⟩ := hn j hj
  cases h.entryEffect hget with
  | stays hkept => exact ⟨token, e, hkept, hsame, h.now ▸ hnotes⟩
  | @worked f f' hsound hdeed hentry hbefore hafter hget' =>
      subst hbefore hafter hentry
      exact ⟨token, f'.entry, hget', hdeed.keeps.interest ▸ hsame, hdeed.notes hsound hnotes⟩
  | ended hcall _ _ => cases hcall ▸ hnotes.sendsOn

theorem Deed.sendsNoted (h : Deed hash operation n m) (hn : n.Attributed) :
    Extends n.journal.sent m.journal.sent (Notes operation m) := by
  cases h with
  | aside halike _ => exact .of_eq halike.sent
  | addFace _ halike _ _ => exact .of_eq halike.sent
  | dropFace halike _ => exact .of_eq halike.sent
  | openEntry => exact .of_eq rfl
  | tellLoop _ hint _ hinfo _ =>
      exact extends_tellLoop hinfo _ fun _ => notes_of_answers fun _ hi => by cases hi
  | sendData =>
      exact extends_sendData _ _ fun _ hdata _ => notes_of_answers (Focus.answers_data hdata)
  | @work f f' hsound hdeed =>
      have hown := Focus.get?_release_self hsound.live
      have hown' := Focus.get?_release_self (hdeed.keeps.live hsound.live)
      exact (hdeed.sendsNoted hsound (hn _ _ hown)).mono fun t ht j hj =>
        ⟨f'.token, f'.entry, hown', ht j hj⟩
  | finish _ _ hget _ _ => exact .of_eq (ended_ending hget).sent

/-- Every Interest that an operation sends is noted at its end. -/
theorem Deeds.sendsNoted (h : Deeds hash operation n m) (hn : n.Attributed) :
    Extends n.journal.sent m.journal.sent (Notes operation m) := by
  have hend := h.preserve (P := fun k => k.Attributed ∧
      Extends n.journal.sent k.journal.sent (Notes operation k))
    (fun _ _ hdeed hk => ⟨hdeed.attributed hk.1,
      (hk.2.mono fun _ => hdeed.notes).trans (hdeed.sendsNoted hk.1)⟩)
    ⟨hn, .of_eq rfl⟩
  exact hend.2

end Node

end NamedData
