import NamedData.Proofs.Reachability
import NamedData.Proofs.Tally

/-!
What the removal of a face does to a node in any state that it reaches. Afterwards nothing names the
face, and apart from that every next hop, record, entry and choice is as it was. The entries forget
the face one after another; an entry that is left without any record by that is due at once, and no
timer of another entry is touched.
-/

namespace NamedData

open Forwarder

namespace PitEntry

/-- The entry names the face and has no record of any other. -/
structure OrphanedBy (e : PitEntry) (face : FaceId) : Prop where
  mentions : e.mentions face = true
  bare : (e.forgetFace face).hasRecords = false

theorem mentions_eq_false_iff {e : PitEntry} {face : FaceId} : e.mentions face = false ↔
    (∀ r ∈ e.inRecords, r.face ≠ face) ∧ ∀ r ∈ e.outRecords, r.face ≠ face := by
  simp [mentions]

theorem mentions_forgetFace (e : PitEntry) (face : FaceId) :
    (e.forgetFace face).mentions face = false := by
  rw [mentions_eq_false_iff]
  exact ⟨fun r hr => of_decide_eq_true (List.mem_filter.mp hr).2,
    fun r hr => of_decide_eq_true (List.mem_filter.mp hr).2⟩

/-- An entry that does not name a face has nothing to forget. -/
theorem forgetFace_of_not_mentions {e : PitEntry} {face : FaceId} (h : e.mentions face = false) :
    e.forgetFace face = e := by
  obtain ⟨hin, hout⟩ := mentions_eq_false_iff.mp h
  rw [forgetFace, List.filter_eq_self.mpr fun r hr => decide_eq_true (hin r hr),
    List.filter_eq_self.mpr fun r hr => decide_eq_true (hout r hr)]

end PitEntry

/-! ### One entry -/

/-- What became of an entry while the first timers turned into the second: it has forgotten a face,
and its timer is another one, and due, exactly if it was orphaned by that. -/
structure Forgotten (face : FaceId) (now : Timestamp) (timers timers' : List (Timer PitToken))
    (token : PitToken) (e e' : PitEntry) : Prop where
  entry : e' = { e.forgetFace face with expiryTimer := e'.expiryTimer }
  retimed : e'.expiryTimer ≠ e.expiryTimer ↔ e.OrphanedBy face
  due : e.OrphanedBy face → EndsAt timers' token e' now
  kept : ¬ e.OrphanedBy face → ∀ deadline,
    EndsAt timers' token e' deadline ↔ EndsAt timers token e deadline

/-- The entry of a token and its timer are the same in both nodes. -/
structure Node.Spares (n m : Node) (token : PitToken) : Prop where
  entry : m.tables.pit.get? token = n.tables.pit.get? token
  timers : ∀ t : Timer PitToken, t.entry = token →
    (t ∈ m.timers.timers ↔ t ∈ n.timers.timers)

section Spares

variable {face : FaceId} {now : Timestamp} {timers : List (Timer PitToken)} {n m k : Node}
  {token : PitToken} {e e' : PitEntry}

theorem Node.Spares.refl (n : Node) (token : PitToken) : n.Spares n token :=
  ⟨rfl, fun _ _ => Iff.rfl⟩

theorem Node.Spares.trans (h : n.Spares m token) (h' : m.Spares k token) : n.Spares k token :=
  ⟨h'.entry.trans h.entry, fun t ht => (h'.timers t ht).trans (h.timers t ht)⟩

theorem Node.Spares.endsAt (h : n.Spares m token) {deadline : Timestamp} :
    EndsAt m.timers.timers token e deadline ↔ EndsAt n.timers.timers token e deadline :=
  exists_congr fun _ => and_congr_right fun _ => h.timers _ rfl

/-- An entry that keeps a record of another face keeps its timer. -/
theorem Forgotten.of_kept (hentry : e' = e.forgetFace face) (hkept : ¬ e.OrphanedBy face) :
    Forgotten face now timers timers token e e' where
  entry := by rw [hentry]
  retimed := iff_of_false (fun hne => hne (hentry ▸ rfl)) hkept
  due horphaned := absurd horphaned hkept
  kept _ deadline := by rw [hentry]; exact Iff.rfl

theorem Forgotten.before (h : n.Spares m token)
    (h' : Forgotten face now m.timers.timers timers token e e') :
    Forgotten face now n.timers.timers timers token e e' where
  entry := h'.entry
  retimed := h'.retimed
  due := h'.due
  kept hnot deadline := (h'.kept hnot deadline).trans h.endsAt

theorem Forgotten.after (h : Forgotten face now timers m.timers.timers token e e')
    (h' : m.Spares k token) : Forgotten face now timers k.timers.timers token e e' where
  entry := h.entry
  retimed := h.retimed
  due horphaned := h'.endsAt.mpr (h.due horphaned)
  kept hnot deadline := h'.endsAt.trans (h.kept hnot deadline)

end Spares

namespace Forwarder

variable {face : FaceId} {n m k : Node} {token : PitToken} {tokens : List PitToken}
  {e : PitEntry} {fw fw' : Forwarder} {now : Timestamp}

/-- The number of a timer that is set now is not that of the entry before. -/
theorem expiryTimer_ne_nextId (h : n.Sound) (hget : n.tables.pit.get? token = some e) :
    e.expiryTimer ≠ some n.timers.nextId := by
  intro hid
  obtain ⟨deadline, harmed⟩ := h.timed.armed token e n.timers.nextId hget hid
  exact Nat.lt_irrefl _ (h.timed.below _ harmed)

theorem timed_forgetting (h : n.Sound) (hget : n.tables.pit.get? token = some e) :
    Focus.Timed ⟨n, token, e.forgetFace face⟩ := by
  have hkeeps : Focus.Keeps ⟨n, token, e⟩
      (Focus.onEntry ⟨n, token, e⟩ fun e => e.forgetFace face) := Focus.keeps_onEntry rfl
  exact Focus.timed_of_keeps (h.focus hget).timed hkeeps rfl rfl

/-- One entry forgets the face. -/
theorem forgotten_forgetFace (h : n.Sound) (hget : n.tables.pit.get? token = some e) :
    Forgotten face n.now n.timers.timers (forgetFace face ⟨n, token, e⟩).node.timers.timers token e
      (forgetFace face ⟨n, token, e⟩).entry := by
  rcases forgetFace_eq face ⟨n, token, e⟩ with
    ⟨hnot, hsame⟩ | ⟨-, hrecords, hsame⟩ | ⟨hmentions, hbare, hsame⟩
  · rw [hsame]
    have hentry : e = e.forgetFace face := (PitEntry.forgetFace_of_not_mentions hnot).symm
    exact .of_kept hentry fun ho => by cases hnot.symm.trans ho.mentions
  · rw [hsame]
    exact .of_kept rfl fun ho => by cases hrecords.symm.trans ho.bare
  · have horphaned : e.OrphanedBy face := ⟨hmentions, hbare⟩
    let f : Focus := ⟨n, token, e.forgetFace face⟩
    have hset : forgetFace face ⟨n, token, e⟩ = f.setExpiry 0 := hsame
    have hnext : (f.setExpiry 0).entry.expiryTimer = some n.timers.nextId :=
      f.expiryTimer_setExpiry 0
    have hends : (f.setExpiry 0).EndsAt (n.now.adding 0) :=
      Focus.endsAt_setExpiry (timed_forgetting h hget) 0
    rw [hset]
    constructor
    · rfl
    · refine iff_of_true ?_ horphaned
      rw [hnext]
      exact (expiryTimer_ne_nextId h hget).symm
    · rw [Timestamp.adding_zero] at hends
      exact fun _ => hends
    · exact fun hnot => absurd horphaned hnot

/-- The other entries do not notice. -/
theorem spares_forgetFace (h : n.Sound) (hget : n.tables.pit.get? token = some e) {u : PitToken}
    (hu : u ≠ token) : n.Spares (forgetFace face ⟨n, token, e⟩).release u where
  entry := by
    have hkeeps := keeps_forgetFace face ⟨n, token, e⟩
    rw [hkeeps.get?_release_of_ne ⟨e, hget, rfl⟩ hu, Node.release_focus hget]
  timers t ht := by
    rcases forgetFace_eq face ⟨n, token, e⟩ with ⟨-, hsame⟩ | ⟨-, -, hsame⟩ | ⟨-, -, hsame⟩
    · rw [hsame]
      exact Iff.rfl
    · rw [hsame]
      exact Iff.rfl
    · have htimed : Focus.Timed ⟨n, token, e.forgetFace face⟩ := timed_forgetting h hget
      have hmem := Focus.mem_timers_setExpiry htimed 0 (t := t)
      have hother : t ≠ ⟨n.now.adding 0, n.timers.nextId, token⟩ := by
        rintro rfl
        exact hu ht.symm
      rw [hsame]
      exact hmem.trans (by simp [hother, ht, hu])

/-! ### All entries -/

/-- The entries of some tokens have forgotten a face, and nothing else has changed. -/
structure ForgetsIn (face : FaceId) (tokens : List PitToken) (n m : Node) : Prop where
  frame : ∃ pit timers, m = { n with tables := { n.tables with pit }, timers }
  forgotten : ∀ token ∈ tokens, ∀ e, n.tables.pit.get? token = some e →
    ∃ e', m.tables.pit.get? token = some e' ∧
      Forgotten face n.now n.timers.timers m.timers.timers token e e'
  others : ∀ token, token ∉ tokens → n.Spares m token

theorem ForgetsIn.nil (face : FaceId) (n : Node) : ForgetsIn face [] n n where
  frame := ⟨n.tables.pit, n.timers, rfl⟩
  forgotten := by simp
  others token _ := .refl n token

theorem ForgetsIn.now_eq (h : ForgetsIn face tokens n m) : m.now = n.now := by
  obtain ⟨pit, timers, rfl⟩ := h.frame
  rfl

theorem ForgetsIn.cons (h : ForgetsIn face [token] n m) (h' : ForgetsIn face tokens m k)
    (hnew : token ∉ tokens) : ForgetsIn face (token :: tokens) n k where
  frame := by
    obtain ⟨pit, timers, rfl⟩ := h.frame
    obtain ⟨pit', timers', rfl⟩ := h'.frame
    exact ⟨pit', timers', rfl⟩
  forgotten u hu e hget := by
    rcases List.mem_cons.mp hu with rfl | hlater
    · obtain ⟨e', hget', hforgotten⟩ := h.forgotten u (List.mem_singleton_self u) e hget
      have hspares := h'.others u hnew
      exact ⟨e', hspares.entry.trans hget', hforgotten.after hspares⟩
    · have hspares := h.others u (by simpa using ne_of_mem_of_not_mem hlater hnew)
      obtain ⟨e', hget', hforgotten⟩ := h'.forgotten u hlater e (hspares.entry.trans hget)
      exact ⟨e', hget', h.now_eq ▸ hforgotten.before hspares⟩
  others u hu := by
    rw [List.mem_cons, not_or] at hu
    exact (h.others u (by simpa using hu.1)).trans (h'.others u hu.2)

theorem forgetsIn_one (h : n.Sound) (hget : n.tables.pit.get? token = some e) :
    ForgetsIn face [token] n (forgetFace face ⟨n, token, e⟩).release where
  frame := by
    rcases forgetFace_eq face ⟨n, token, e⟩ with ⟨-, hsame⟩ | ⟨-, -, hsame⟩ | ⟨-, -, hsame⟩
    all_goals
      rw [hsame]
      exact ⟨_, _, rfl⟩
  forgotten u hu e' hget' := by
    obtain rfl := List.mem_singleton.mp hu
    obtain rfl := Option.some.inj (hget.symm.trans hget')
    have hkeeps := keeps_forgetFace face ⟨n, u, e⟩
    have hself := Focus.get?_release_self (hkeeps.live ⟨e, hget, rfl⟩)
    rw [hkeeps.token] at hself
    exact ⟨_, hself, forgotten_forgetFace h hget⟩
  others u hu := spares_forgetFace h hget (by simpa using hu)

/-- A node stays sound while an entry forgets a face. -/
theorem sound_forgetFace (h : n.Sound) (hget : n.tables.pit.get? token = some e) (face : FaceId) :
    (forgetFace face ⟨n, token, e⟩).release.Sound := by
  have hkeeps := keeps_forgetFace face ⟨n, token, e⟩
  refine Node.Sound.release ((h.focus hget).forgetFace face) fun u e' _ hget' => ?_
  rw [hkeeps.tables] at hget'
  exact h.distinct u e' hget'

/-- One entry after another forgets the face. -/
theorem forgetsIn_foldlM (h : fw.node.Sound) (hnodup : tokens.Nodup)
    (hfold : tokens.foldlM (fun fw token => fw.atEntry token fun f => .ok (forgetFace face f)) fw =
      Except.ok fw') :
    fw' = { fw with node := fw'.node } ∧ ForgetsIn face tokens fw.node fw'.node := by
  induction tokens generalizing fw with
  | nil =>
      cases hfold
      exact ⟨rfl, .nil face _⟩
  | cons token rest ih =>
      obtain ⟨hnew, hnodup⟩ := List.nodup_cons.mp hnodup
      obtain ⟨s, hstep, hrest⟩ := bind_eq_ok.mp hfold
      obtain ⟨e, f, hget, hwork, rfl⟩ := atEntry_eq_ok.mp hstep
      cases hwork
      obtain ⟨hothers, hforgets⟩ := ih (sound_forgetFace h hget face) hnodup hrest
      exact ⟨hothers, (forgetsIn_one h hget).cons hforgets hnew⟩

/-! ### The removal -/

/-- A node after the removal of a face. -/
structure Purged (face : FaceId) (n m : Node) : Prop where
  noHop : ∀ name, ∀ hop ∈ (m.tables.recordAt name).nextHops, hop.face ≠ face
  noRecord : ∀ token e, m.tables.pit.get? token = some e →
    (∀ r ∈ e.inRecords, r.face ≠ face) ∧ ∀ r ∈ e.outRecords, r.face ≠ face
  noFace : m.faces.find? face = none
  notDisconnected : face ∉ m.disconnected
  records : ∀ name, m.tables.recordAt name = { n.tables.recordAt name with
    nextHops := (n.tables.recordAt name).nextHops.filter fun hop => hop.face ≠ face }
  entries : ∀ token e, n.tables.pit.get? token = some e →
    ∃ e', m.tables.pit.get? token = some e' ∧
      Forgotten face n.now n.timers.timers m.timers.timers token e e'
  noneNew : ∀ token, n.tables.pit.get? token = none → m.tables.pit.get? token = none
  faces : ∀ other, other ≠ face → m.faces.find? other = n.faces.find? other
  latest : m.faces.latest = n.faces.latest
  disconnected : m.disconnected = n.disconnected.filter (· ≠ face)
  regions : m.regions = n.regions
  deadNonces : m.deadNonces = n.deadNonces
  counters : m.counters = n.counters
  now_eq : m.now = n.now
  sent : m.journal.sent = n.journal.sent
  events : m.journal.events = n.journal.events
  notices : m.journal.notices = n.journal.notices ++ [.faceRemoved face]

theorem remove_fst {t : FaceTable} :
    (t.remove face).1 = true ↔ FaceId.firstDynamic ≤ face.id ∧ t.contains face = true := by
  rw [FaceTable.remove]
  split
  next hreserved => simp [Nat.not_le.mpr hreserved]
  next hdynamic =>
    cases hknown : t.contains face <;> simp [Nat.le_of_not_lt hdynamic]

theorem remove_snd {t t' : FaceTable} (h : t.remove face = (true, t')) :
    t' = { t with faces := t.faces.filter fun f => f.info.face ≠ face } := by
  rw [FaceTable.remove] at h
  split at h
  · cases h
  · split at h
    · exact (congrArg Prod.snd h).symm
    · cases h

/-- The face is gone, and all others are there as before. -/
theorem find?_remove {t t' : FaceTable} (h : t.remove face = (true, t')) (other : FaceId) :
    t'.find? other = if other = face then none else t.find? other := by
  rw [remove_snd h, FaceTable.find?, List.find?_filter]
  split
  next same =>
    refine List.find?_eq_none.mpr fun f _ => ?_
    simp [same]
  next hne =>
    rw [FaceTable.find?]
    congr 1
    funext f
    by_cases hface : f.info.face = other
    · simp [hface, hne]
    · simp [hface]

/-- The node with the face and its next hops taken away, before the entries forget it. -/
def withoutFace (n : Node) (face : FaceId) (faces : FaceTable) : Node :=
  { Node.say { n with faces } (.faceRemoved face) with tables := n.tables.forgetNextHop face }

theorem sound_withoutFace (h : n.Sound) (face : FaceId) (faces : FaceTable) :
    (withoutFace n face faces).Sound :=
  h.congr rfl rfl

theorem removeFace_eq (fw : Forwarder) (now : Timestamp) (face : FaceId) :
    (fw.removeFace now face = .ok (false, fw.tick now) ∧
      (fw.node.faces.remove face).1 = false) ∨
    ∃ faces last, fw.node.faces.remove face = (true, faces) ∧
      fw.node.tables.pit.tokens.foldlM (fun fw token => fw.atEntry token fun f =>
        .ok (forgetFace face f))
          { fw with node := withoutFace (fw.tick now).node face faces } = Except.ok last ∧
      fw.removeFace now face = .ok (true, last.onNode fun n =>
        { n with disconnected := n.disconnected.filter (· ≠ face) }) := by
  obtain ⟨result, hresult⟩ := removeFace_ok fw now face
  rw [hresult]
  simp only [removeFace] at hresult
  split at hresult
  next faces hremove =>
    left
    cases hresult
    have hnode : fw.node.faces.remove face = (false, faces) := hremove
    exact ⟨rfl, by rw [hnode]⟩
  next faces hremove =>
    right
    obtain ⟨last, hfold, hlast⟩ := bind_eq_ok.mp hresult
    cases hlast
    exact ⟨faces, last, hremove, hfold, rfl⟩

/-- All entries have forgotten the face, and it is taken from the list of lost faces. -/
theorem ForgetsIn.purged (h : ForgetsIn face n.tables.pit.tokens (withoutFace n face faces) m)
    (hordered : n.tables.tree.Ordered) (hremove : n.faces.remove face = (true, faces)) :
    Purged face n { m with disconnected := m.disconnected.filter (· ≠ face) } := by
  have hlisted (token : PitToken) : token ∈ n.tables.pit.tokens ↔
      ∃ e, n.tables.pit.get? token = some e := Arena.mem_tokens
  have hnone : ∀ token, n.tables.pit.get? token = none → m.tables.pit.get? token = none := by
    intro token hgone
    have hnot : token ∉ n.tables.pit.tokens := by
      rw [hlisted, hgone]
      simp
    exact (h.others token hnot).entry.trans hgone
  have hforgotten : ∀ token e, n.tables.pit.get? token = some e →
      ∃ e', m.tables.pit.get? token = some e' ∧
        Forgotten face n.now n.timers.timers m.timers.timers token e e' := by
    intro token e hget
    exact h.forgotten token ((hlisted token).mpr ⟨e, hget⟩) e hget
  have hrecords := Tables.recordAt_forgetNextHop hordered face
  have hfind := find?_remove hremove
  have hlatest : faces.latest = n.faces.latest := by rw [remove_snd hremove]
  obtain ⟨pit, timers, rfl⟩ := h.frame
  constructor
  case noHop =>
    intro name hop hhop
    have hkept : hop ∈ ((n.tables.forgetNextHop face).recordAt name).nextHops := hhop
    rw [hrecords] at hkept
    exact of_decide_eq_true (List.mem_filter.mp hkept).2
  case noRecord =>
    intro token e' hget'
    cases hget : n.tables.pit.get? token with
    | none => cases hget'.symm.trans (hnone token hget)
    | some e =>
        obtain ⟨e'', hget'', hforgot⟩ := hforgotten token e hget
        obtain rfl := Option.some.inj (hget''.symm.trans hget')
        have hmentions := e.mentions_forgetFace face
        rw [PitEntry.mentions_eq_false_iff] at hmentions
        rw [hforgot.entry]
        exact hmentions
  case noFace => exact (hfind face).trans (if_pos rfl)
  case notDisconnected => simp
  case records => exact hrecords
  case entries => exact hforgotten
  case noneNew => exact hnone
  case faces => exact fun other hother => (hfind other).trans (if_neg hother)
  case latest => exact hlatest
  all_goals rfl

end Forwarder

variable {settings : Settings} {store : ContentStore} {hash : HashFunction} {fw : Forwarder}

/-- The removal of a face in any state that is reached takes away the face and all that names it and
nothing else, unless the face is reserved or unknown, and then only the clock is read. -/
theorem face_removal_purges (reached : Reachable settings store hash fw) (now : Timestamp)
    (face : FaceId) : ∃ isRemoved fw', fw.removeFace now face = .ok (isRemoved, fw') ∧
      (isRemoved = true ↔ FaceId.firstDynamic ≤ face.id ∧ fw.node.faces.contains face = true) ∧
      (isRemoved = false → fw' = fw.tick now) ∧
      (isRemoved = true → fw' = { fw with node := fw'.node } ∧
        Forwarder.Purged face { fw.node with now } fw'.node) := by
  have hvalid := reached.orderly.node.valid
  rcases fw.removeFace_eq now face with ⟨hrefused, hremove⟩ | ⟨faces, last, hremove, hfold, hdone⟩
  · refine ⟨false, fw.tick now, hrefused, ?_, fun _ => rfl, nofun⟩
    rw [← Forwarder.remove_fst, hremove]
  · have hsound := Forwarder.sound_withoutFace (n := (fw.tick now).node)
      (hvalid.sound.congr rfl rfl) face faces
    obtain ⟨hothers, hforgets⟩ :=
      Forwarder.forgetsIn_foldlM hsound (Arena.tokens_nodup fw.node.tables.pit) hfold
    refine ⟨true, _, hdone, ?_, nofun, fun _ => ⟨?_, ?_⟩⟩
    · rw [← Forwarder.remove_fst, hremove]
    · rw [hothers]
      rfl
    · exact hforgets.purged hvalid.indexed.ordered hremove

namespace Sample

/-- The face that asked for something is gone, and only the one that was asked is left. -/
def askerGone : Forwarder :=
  reached start (.removeFace ⟨3⟩ ⟨256⟩ :: ask ⟨2⟩ ⟨1⟩ :: setup)

theorem run_askerGone :
    Run start (historyOf start (.removeFace ⟨3⟩ ⟨256⟩ :: ask ⟨2⟩ ⟨1⟩ :: setup)) askerGone :=
  Run.reached start _ (by decide +kernel)

end Sample

open Sample

/-- When the other face goes too, the entry has no record left and is due. -/
theorem face_removal_purges_last : ∃ e fw', askerGone.removeFace ⟨4⟩ ⟨257⟩ = .ok (true, fw') ∧
    askerGone.node.tables.pit.get? ⟨0, 0⟩ = some e ∧ e.OrphanedBy ⟨257⟩ ∧
    Forwarder.Purged ⟨257⟩ { askerGone.node with now := ⟨4⟩ } fw'.node := by
  obtain ⟨isRemoved, fw', hremove, hiff, -, hpurged⟩ :=
    face_removal_purges run_askerGone.reachable ⟨4⟩ ⟨257⟩
  have hremoved : isRemoved = true := hiff.mpr (by decide +kernel)
  have hentry : (askerGone.node.tables.pit.get? ⟨0, 0⟩).any (fun e =>
      e.mentions ⟨257⟩ && !(e.forgetFace ⟨257⟩).hasRecords) = true := by decide +kernel
  obtain ⟨e, hget, he⟩ := (Option.any_eq_true _ _).mp hentry
  obtain ⟨hmentions, hbare⟩ := Bool.and_eq_true_iff.mp he
  subst hremoved
  exact ⟨e, fw', hremove, hget, ⟨hmentions, (Bool.not_eq_true' _).mp hbare⟩, (hpurged rfl).2⟩

end NamedData
