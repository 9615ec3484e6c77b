import NamedData.Proofs.Arrivals

/-!
Routes of Interests. Strategies ask for the next hops of an entry, so an Interest that joins an
entry goes where the Interest goes that the entry was made for. That is its own route if both have
the same hint left; an Interest with another hint is sent along the first one's.
-/

namespace NamedData

open Forwarder

/-- The face is among the next hops of an Interest by its own hint and name. -/
def Node.RoutesTo (n : Node) (i : Interest) (face : FaceId) : Prop :=
  ∃ hop ∈ n.route i, hop.face = face

/-! ### Hints -/

/-- A hint that has not led here stays as it is. -/
theorem Forwarder.hintLeft_arrival (n : Node) (ingress : FaceEndpoint) (i : Interest) :
    hintLeft n.regions (n.arrival ingress i) = (n.arrival ingress i).forwardingHint := by
  simp only [Node.arrival, Interest.arrived, hintLeft]
  split
  · split <;> rfl
  · rfl

/-- An Interest is routed by the hint that it has left. -/
theorem Node.route_of_hintLeft {n : Node} {i j : Interest}
    (hhint : hintLeft n.regions i = hintLeft n.regions j) (hname : i.name = j.name) :
    n.route i = n.route j := by
  have hleft (i : Interest) : n.route i =
      n.route { i with forwardingHint := hintLeft n.regions i } := by
    rw [route, route, hintLeft]
    cases hreaches : n.regions.reaches i.forwardingHint <;> simp [hreaches]
  rw [hleft i, hleft j]
  exact route_congr hhint hname

/-! ### Steps -/

variable {settings : Settings} {store : ContentStore} {hash : HashFunction} {fw : Forwarder}
  {earlier : List Step} {s : Step} {now : Timestamp} {ingress : FaceEndpoint} {i j : Interest}
  {t : Transmission}

/-- When an untagged Interest comes in, what is sent is the Interest itself without what hint has led
here, and each face that it is sent to is a next hop of the Interest that its entry was made for, by
the hint that this one had left and by the routes and regions of now. That is a next hop of the
Interest itself if the entry is made for it, or if both have the same hint left. -/
theorem forwarded_along_first
    (run : Run (Forwarder.new settings store hash) (s :: earlier) fw)
    (hcall : s.operation = .receive now ingress (.interest i)) (htag : i.nextHopFace = none) :
    ∀ t ∈ s.sent, ∀ j, t.packet = .interest j →
      j = (s.before.node.arrival ingress i).untagged ∧
        ∃ token opening peer first, MadeFor (s :: earlier) token opening peer first ∧
          first.sameSelectors i = true ∧
          s.before.node.RoutesTo (opening.before.node.arrival peer first) t.peer.face ∧
          (opening = s ∨ hintLeft s.before.node.regions (opening.before.node.arrival peer first) =
              j.forwardingHint → s.before.node.RoutesTo j t.peer.face) := by
  intro t ht j hpacket
  obtain ⟨rfl, _, token, e, hget, hsame, hallowed⟩ := run.sent_on_arrival hcall ht hpacket
  have hroutes : s.before.node.RoutesTo e.interest t.peer.face := by
    rcases hallowed with htagged | ⟨_, hroute⟩
    · cases htag.symm.trans htagged
    · exact hroute
  obtain ⟨opening, peer, first, hmade, hinterest⟩ := run.opened hget
  rw [hinterest] at hsame hroutes
  refine ⟨rfl, token, opening, peer, first, hmade, hsame, hroutes, ?_⟩
  have hname : first.name = i.name := (Interest.sameSelectors_iff.mp hsame).1
  intro howns
  have hhint : hintLeft s.before.node.regions (opening.before.node.arrival peer first) =
      hintLeft s.before.node.regions (s.before.node.arrival ingress i) := by
    rw [hintLeft_arrival s.before.node ingress i]
    rcases howns with rfl | hhint
    · obtain ⟨_, _, _, hopens, _⟩ := hmade
      obtain ⟨_, hcall'⟩ := hopens.call
      cases hcall.symm.trans hcall'
      exact hintLeft_arrival _ ingress i
    · exact hhint
  have hroute : s.before.node.route (opening.before.node.arrival peer first) =
      s.before.node.route (s.before.node.arrival ingress i) :=
    Node.route_of_hintLeft hhint hname
  have hown : s.before.node.RoutesTo (s.before.node.arrival ingress i) t.peer.face := by
    rw [Node.RoutesTo, ← hroute]
    exact hroutes
  exact hown

/-! ### Two hints for one name -/

namespace Sample

def firstHint : Name :=
  [.generic [104]]

def secondHint : Name :=
  [.generic [105]]

/-- Four faces; each of two hints leads to one of them. -/
def twoHints : List Operation :=
  [.addRoute ⟨1⟩ secondHint ⟨259⟩ 0, .addRoute ⟨1⟩ firstHint ⟨258⟩ 0,
    .addFace (fun _ => true) .offHost .pointToPoint,
    .addFace (fun _ => true) .offHost .pointToPoint,
    .addFace (fun _ => true) .offHost .pointToPoint,
    .addFace (fun _ => true) .offHost .pointToPoint]

def askFirst : Operation :=
  .receive ⟨1⟩ ⟨⟨256⟩, 0⟩ (.interest { name, nonce := ⟨1⟩, forwardingHint := [firstHint] })

def secondAsked : Interest where
  name := name
  nonce := ⟨2⟩
  forwardingHint := [secondHint]

def askSecond : Operation :=
  .receive ⟨101⟩ ⟨⟨257⟩, 0⟩ (.interest secondAsked)

/-- The step in which an Interest with the second hint joins the entry of one with the first. -/
def joined : Step :=
  ⟨reached start (askFirst :: twoHints), askSecond, reached start (askSecond :: askFirst :: twoHints)⟩

theorem run_joined : Run start (joined :: historyOf start (askFirst :: twoHints)) joined.after := by
  have hrecorded : (record start (askSecond :: askFirst :: twoHints)).isOk = true := by
    decide +kernel
  have hrun := Run.reached start _ hrecorded
  rwa [historyOf_cons _ _ _ hrecorded] at hrun

theorem sent_joined : ∃ t ∈ joined.sent, t.packet = .interest secondAsked ∧ t.peer.face = ⟨258⟩ := by
  have hsent : joined.sent.any (fun t =>
      t.packet = .interest secondAsked ∧ t.peer.face = ⟨258⟩) = true := by decide +kernel
  simpa using hsent

end Sample

/-- An Interest whose hint leads to one face is sent to another, because it joins an entry that was
made for another hint. -/
theorem forwarded_along_other_hint : ∃ earlier s fw, Run Sample.start (s :: earlier) fw ∧
    s.operation = .receive ⟨101⟩ ⟨⟨257⟩, 0⟩ (.interest Sample.secondAsked) ∧
    ∃ t ∈ s.sent, t.packet =
        .interest (s.before.node.arrival ⟨⟨257⟩, 0⟩ Sample.secondAsked).untagged ∧
      ¬ s.before.node.RoutesTo (s.before.node.arrival ⟨⟨257⟩, 0⟩ Sample.secondAsked)
        t.peer.face := by
  obtain ⟨t, ht, hpacket, hface⟩ := Sample.sent_joined
  have harrival : (Sample.joined.before.node.arrival ⟨⟨257⟩, 0⟩ Sample.secondAsked).untagged =
      Sample.secondAsked := by decide +kernel
  have hroute : (Sample.joined.before.node.route
      (Sample.joined.before.node.arrival ⟨⟨257⟩, 0⟩ Sample.secondAsked)).all
        (fun hop => hop.face ≠ ⟨258⟩) = true := by decide +kernel
  refine ⟨_, Sample.joined, _, Sample.run_joined, rfl, t, ht, harrival ▸ hpacket, ?_⟩
  rintro ⟨hop, member, hsame⟩
  exact of_decide_eq_true (List.all_eq_true.mp hroute hop member) (hsame.trans hface)

/-- The Interest with the second hint goes along the first. -/
theorem forwarded_along_first_joined : ∃ earlier s fw, Run Sample.start (s :: earlier) fw ∧
    ∃ t ∈ s.sent, t.packet = .interest Sample.secondAsked ∧
      ∃ token opening peer first, MadeFor (s :: earlier) token opening peer first ∧
        s.before.node.RoutesTo (opening.before.node.arrival peer first) t.peer.face := by
  obtain ⟨t, ht, hpacket, -⟩ := Sample.sent_joined
  obtain ⟨-, token, opening, peer, first, hmade, -, hroutes, -⟩ :=
    forwarded_along_first Sample.run_joined rfl rfl t ht _ hpacket
  exact ⟨_, _, _, Sample.run_joined, t, ht, hpacket, token, opening, peer, first, hmade, hroutes⟩

end NamedData
